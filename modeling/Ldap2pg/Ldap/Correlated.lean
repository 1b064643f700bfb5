import Ldap2pg.Ldap.Values
import Ldap2pg.Lib.Loops

/-! # Sub-entries, chosen together with the values of the entry

With a sub-search, `GenerateValues` resolves the expressions on sub-entries first.
Each result gets a key, the keys take the place of the values of the sub-search
attribute, and are resolved back. What comes out is the product of the choices in
the entry and of the choices in the sub-entries, provided that formats refer to the
sub-search attribute by its name and a dot. -/
namespace Ldap2pg.Ldap.Correlated
open Lib Pyfmt Ldap2pg.Lists

/-! ## What is expected -/

/-- The values of an attribute: the DN for `dn`, the first RDN of that name for a known
one, what the entry has otherwise. -/
def entryValues (env : Env) (entry : Entry) (attr : String) : List String :=
  if env.toLower attr = "dn" then [entry.dn]
  else if env.toLower attr ∈ env.knownRDNs then [(resolveFirstRDN env entry.dn attr).getD ""]
  else entry.values env attr

/-- An expression, in the entry that values were chosen from. -/
def valueIn (env : Env) (values : Values) (expr : String) : Option String :=
  match cut '.' expr with
  | (attr, field, hasField) =>
    let value := values[attr]?.getD ""
    if hasField = false then some value else resolveFirstRDN env value field

/-- An expression, in the entry or after the dot in the sub-entry. -/
def valueOf (env : Env) (subsearchAttribute : String) (values subValues : Values) (expr : String) :
    Option String :=
  match cut '.' expr with
  | (attr, field, hasField) =>
    if hasField = true ∧ attr = subsearchAttribute then some ((valueIn env subValues field).getD "")
    else valueIn env values expr

/-- An expression refers to the sub-search attribute with a dot. -/
def refersTo (subsearchAttribute expr : String) : Bool :=
  (cut '.' expr).2.2 && root expr == subsearchAttribute

/-- The choices of a sub-entry and of its values. -/
def subChoices (env : Env) (r : Result) (expressions : List String) : List Values :=
  if expressions.any (refersTo r.subsearchAttribute) then
    r.subsearchEntries.flatMap fun subEntry => choices (entryValues env subEntry) ∅
      (attributesOf (subExpressions r.subsearchAttribute expressions))
  else [∅]

/-- All choices in the entry, with all choices in the sub-entries. -/
def correlated (env : Env) (r : Result) (entry : Entry) (fmts : List Format) : List Values :=
  let expressions := expressionsOf fmts
  (choices (entryValues env entry) ∅
    ((attributesOf expressions).filter (· ≠ r.subsearchAttribute))).flatMap fun values =>
      (subChoices env r expressions).map fun subValues =>
        valuesOf (valueOf env r.subsearchAttribute values subValues) expressions

/-! ## When it is so -/

/-- What `strings.EqualFold` does: a text is itself up to letter case, and nothing else
than the empty text is the empty text. -/
structure Folds (env : Env) : Prop where
  refl : ∀ s, env.equalFold s s = true
  empty : ∀ s, env.equalFold "" s = true → s = ""

/-- What `strings.EqualFold` does, for texts compared in turn. -/
structure CaseFolds (env : Env) : Prop extends Folds env where
  symm : ∀ a b, env.equalFold a b = true → env.equalFold b a = true
  trans : ∀ a b c, env.equalFold a b = true → env.equalFold b c = true → env.equalFold a c = true

/-- The formats refer to the sub-search attribute by its name and a dot, never by the
name in another case, and it is an attribute of the entry. -/
structure Referring (env : Env) (subsearchAttribute : String) (expressions : List String) : Prop where
  spelled : ∀ e ∈ expressions, env.equalFold subsearchAttribute (root e) = true →
    refersTo subsearchAttribute e = true
  held : (∃ e ∈ expressions, root e = subsearchAttribute) →
    env.toLower subsearchAttribute ≠ "dn" ∧ env.toLower subsearchAttribute ∉ env.knownRDNs

/-- The formats refer to the sub-search attribute so, and attributes have a name. -/
structure Proper (env : Env) (subsearchAttribute : String) (expressions : List String) : Prop
    extends Referring env subsearchAttribute expressions where
  named : ∀ e ∈ expressions, root e ≠ ""
  subNamed : ∀ e ∈ subExpressions subsearchAttribute expressions, root e ≠ ""

/-! ## One expression -/

section Expression
variable {env : Env} {sub attr e : String} {entry : Entry} {subKeys : List String}
  {values subValues : Values} {subMap : Dict Values}

theorem root_of_refersTo (h : refersTo sub e = true) : root e = sub := by
  simp only [refersTo, Bool.and_eq_true, beq_iff_eq] at h
  exact h.2

theorem Referring.refersTo {expressions : List String} (h : Referring env sub expressions)
    (hfold : Folds env) (he : e ∈ expressions) (hroot : root e = sub) : refersTo sub e = true :=
  h.spelled e he (hroot ▸ hfold.refl _)

theorem exists_rest (h : refersTo sub e = true) :
    ∃ rest, '.' ∉ sub.toList ∧ e = sub ++ "." ++ rest := by
  have hroot := root_of_refersTo h
  rcases cut_cases e with ⟨_, hcut⟩ | ⟨attr, rest, hdot, he, hcut⟩
  · simp [refersTo, hcut] at h
  · rw [root, hcut] at hroot
    exact ⟨rest, hroot ▸ hdot, hroot ▸ he⟩

theorem attributeValues_entry (h : env.equalFold sub attr = false) :
    attributeValues env entry sub subKeys attr = entryValues env entry attr := by
  simp [attributeValues, entryValues, h]

theorem expressionValue_other (h : root e ≠ sub) :
    expressionValue env sub values subMap e = valueIn env values e := by
  unfold expressionValue valueIn
  rw [root] at h
  rcases hcut : cut '.' e with ⟨attr, field, hasField⟩
  rw [hcut] at h
  simp only
  rw [if_neg (show ¬ attr = sub from h)]

theorem valueIn_insert {key : String} (h : root e ≠ sub) :
    valueIn env (values.insert sub key) e = valueIn env values e := by
  unfold valueIn
  rw [root] at h
  rcases hcut : cut '.' e with ⟨attr, field, hasField⟩
  rw [hcut] at h
  simp only
  rw [Dict.get_insert, if_neg (Ne.symm h)]

theorem valueOf_other (h : root e ≠ sub) :
    valueOf env sub values subValues e = valueIn env values e := by
  unfold valueOf
  rw [root] at h
  rcases hcut : cut '.' e with ⟨attr, field, hasField⟩
  rw [hcut] at h
  exact if_neg fun hsub => h hsub.2

end Expression

/-! ## The keys of the choices in sub-entries -/

theorem dash_not_mem_repr (n : Nat) : '-' ∉ n.repr.toList := by
  intro hmem
  rw [Nat.toList_repr] at hmem
  exact absurd (Nat.isDigit_of_mem_toDigits (by decide) (by decide) hmem) (by decide)

theorem toList_subKey (i j : Nat) : (subKey i j).toList =
    "subentry".toList ++ (i.repr.toList ++ '-' :: ("comb".toList ++ j.repr.toList)) := by
  show ("subentry" ++ i.repr ++ "-comb" ++ j.repr).toList = _
  rw [String.toList_append, String.toList_append, String.toList_append, List.append_assoc,
    List.append_assoc]
  rfl

theorem subKey_inj {i j i' j' : Nat} (h : subKey i j = subKey i' j') : i = i' ∧ j = j' := by
  have heq := congrArg String.toList h
  rw [toList_subKey, toList_subKey, List.append_cancel_left_eq] at heq
  have hrest : '-' ∉ "comb".toList ++ j.repr.toList := fun hmem =>
    (List.mem_append.mp hmem).elim (by decide) (dash_not_mem_repr j)
  obtain ⟨hi, _, hj⟩ := (List.append_cons_inj_of_notMem (dash_not_mem_repr i) hrest).mp heq
  rw [List.append_cancel_left_eq] at hj
  exact ⟨Nat.repr_inj.mp (String.ext hi), Nat.repr_inj.mp (String.ext hj)⟩

section Keys
variable {env : Env} {o : Order} {r : Result} {expressions : List String}

/-- The choices in the sub-entries, by key. -/
def subRows (env : Env) (o : Order) (r : Result) (expressions : List String) :
    List (String × Values) :=
  r.subsearchEntries.zipIdx.flatMap fun se =>
    (generateCombinations env se.1 ""
      (listVariables o (subExpressions r.subsearchAttribute expressions)) []).zipIdx.map fun vj =>
        (subKey se.2 vj.2, vj.1)

theorem generateSubsearchValues_eq : r.generateSubsearchValues env o expressions =
    Dict.fill Prod.fst (fun row => resolveExpressions env ""
      (subExpressions r.subsearchAttribute expressions) row.2 ∅) ∅ (subRows env o r expressions) := by
  rw [Dict.fill, subRows, List.foldl_flatMap]
  simp only [List.foldl_map]
  rfl

theorem subRows_keys : ((subRows env o r expressions).map Prod.fst).Nodup := by
  rw [subRows, List.map_flatMap]
  simp only [List.map_map]
  refine nodup_flatMap_of_inj (nodup_zipIdx_snd _).of_map (fun se _ => ?_) fun a ha b hb c hc hc' => ?_
  · have hkeys := (nodup_zipIdx_snd (generateCombinations env se.1 ""
      (listVariables o (subExpressions r.subsearchAttribute expressions)) [])).map
        fun _ _ h => (subKey_inj (i := se.2) h).2
    rwa [List.map_map] at hkeys
  · obtain ⟨_, _, rfl⟩ := List.mem_map.mp hc
    obtain ⟨_, _, hkey⟩ := List.mem_map.mp hc'
    exact List.inj_on_of_nodup_map (nodup_zipIdx_snd _) ha hb (subKey_inj hkey).1.symm

theorem subRows_choices : (subRows env o r expressions).map Prod.snd =
    r.subsearchEntries.flatMap fun subEntry => generateCombinations env subEntry ""
      (listVariables o (subExpressions r.subsearchAttribute expressions)) [] := by
  rw [subRows, List.map_flatMap, ← flatMap_zipIdx_fst r.subsearchEntries]
  refine List.flatMap_congr fun se _ => ?_
  rw [List.map_map]
  exact List.zipIdx_map_fst 0 _

end Keys

/-! ## The product -/

section Product
variable {env : Env} {o : Order} {r : Result} {entry : Entry} {expressions expressions' : List String}

/-- An expression, in the entry or after the dot in the sub-entry, as it is generated: without a
sub-search, an expression without a name reads nothing in the sub-entry. -/
def generatedValue (env : Env) (subsearchAttribute : String) (values subValues : Values)
    (expr : String) : Option String :=
  if refersTo subsearchAttribute expr then
    some ((expressionValue env "" subValues ∅ (cut '.' expr).2.1).getD "")
  else valueIn env values expr

/-- The choices of a sub-entry and of its values, as they are generated. -/
def generatedChoices (env : Env) (r : Result) (expressions : List String) : List Values :=
  r.subsearchEntries.flatMap fun subEntry => choices (attributeValues env subEntry "" []) ∅
    (attributesOf (subExpressions r.subsearchAttribute expressions))

theorem generatedValue_other {sub e : String} {values subValues : Values} (h : root e ≠ sub) :
    generatedValue env sub values subValues e = valueIn env values e :=
  if_neg fun hrefers => h (root_of_refersTo hrefers)

theorem equalFold_other {sub attr : String} (h : Referring env sub expressions)
    (hattr : attr ∈ attributesOf expressions) (hne : attr ≠ sub) : env.equalFold sub attr = false := by
  obtain ⟨e, he, rfl⟩ := mem_attributesOf.mp hattr
  refine Bool.eq_false_iff.mpr fun hfold => hne ?_
  exact root_of_refersTo (h.spelled e he hfold)

theorem subExpressions_ne_nil {sub : String} (hrefers : expressions.any (refersTo sub) = true) :
    subExpressions sub expressions ≠ [] := by
  obtain ⟨e, he, hrefers⟩ := List.any_eq_true.mp hrefers
  obtain ⟨rest, _, rfl⟩ := exists_rest hrefers
  exact List.ne_nil_of_mem (mem_subExpressions_iff.mpr he)

/-- The rows hold the choices in the sub-entries. -/
theorem subRows_perm (hrefers : expressions.any (refersTo r.subsearchAttribute) = true)
    (hperm : expressions'.Perm expressions) :
    ((subRows env o r expressions').map Prod.snd).Perm (generatedChoices env r expressions) := by
  have hsub : (subExpressions r.subsearchAttribute expressions').Perm
      (subExpressions r.subsearchAttribute expressions) := hperm.filterMap _
  have hattributes : (listVariables o (subExpressions r.subsearchAttribute expressions')).Perm
      (attributesOf (subExpressions r.subsearchAttribute expressions)) := listVariables_perm hsub
  have hne : listVariables o (subExpressions r.subsearchAttribute expressions') ≠ [] := fun hnone =>
    attributesOf_ne_nil (subExpressions_ne_nil hrefers) (List.nil_perm.mp (hnone ▸ hattributes))
  rw [subRows_choices, generatedChoices]
  refine List.Perm.flatMap_left _ fun subEntry _ => ?_
  rw [generateCombinations_eq hne]
  exact choices_perm (hattributes.nodup_iff.mpr (nodup_attributesOf _)) hattributes ∅

/-- **A key is resolved back** to the choice it stands for. -/
theorem resolve_row (hfold : Folds env) (h : Referring env r.subsearchAttribute expressions)
    (hperm : expressions'.Perm expressions) {row : String × Values}
    (hrow : row ∈ subRows env o r expressions') (values : Values) :
    resolveExpressions env r.subsearchAttribute expressions'
        (values.insert r.subsearchAttribute row.1) (r.generateSubsearchValues env o expressions') =
      valuesOf (generatedValue env r.subsearchAttribute values row.2) expressions := by
  have hget : (r.generateSubsearchValues env o expressions')[row.1]? = some (resolveExpressions env ""
      (subExpressions r.subsearchAttribute expressions') row.2 ∅) := by
    rw [generateSubsearchValues_eq]
    exact Dict.get_fill_of_mem subRows_keys hrow
  rw [resolveExpressions_eq]
  refine valuesOf_congr hperm fun e he => ?_
  by_cases hroot : root e = r.subsearchAttribute
  · have hrefers := h.refersTo hfold he hroot
    obtain ⟨rest, hdot, rfl⟩ := exists_rest hrefers
    have hvalue : (resolveExpressions env "" (subExpressions r.subsearchAttribute expressions') row.2
        ∅)[rest]? = expressionValue env "" row.2 ∅ rest := by
      rw [resolveExpressions_eq, get_valuesOf,
        if_pos (mem_subExpressions_iff.mpr (hperm.mem_iff.mpr he))]
    rw [expressionValue, generatedValue, if_pos hrefers, cut_append_dot hdot]
    simp [hget, hvalue]
  · rw [expressionValue_other hroot, valueIn_insert hroot, generatedValue_other hroot]

end Product

section Main
variable {env : Env} {r : Result} {entry : Entry} {fmts : List Format}
  {expressions' attributes keys : List String} {subMap : Dict Values}

/-- Formats that do not refer to sub-entries leave them aside. -/
theorem values_apart (h : Referring env r.subsearchAttribute (expressionsOf fmts))
    (hperm : expressions'.Perm (expressionsOf fmts))
    (hattributes : attributes.Perm (attributesOf (expressionsOf fmts)))
    (hapart : ∀ e ∈ expressionsOf fmts, root e ≠ r.subsearchAttribute) :
    ((choices (attributeValues env entry r.subsearchAttribute keys) ∅ attributes).map fun values =>
      resolveExpressions env r.subsearchAttribute expressions' values subMap).Perm
        (correlated env r entry fmts) := by
  have hothers : (attributesOf (expressionsOf fmts)).filter (· ≠ r.subsearchAttribute) =
      attributesOf (expressionsOf fmts) := by
    refine List.filter_eq_self.mpr fun attr hattr => ?_
    obtain ⟨e, he, rfl⟩ := mem_attributesOf.mp hattr
    simpa using hapart e he
  have hnone : (expressionsOf fmts).any (refersTo r.subsearchAttribute) = false :=
    List.any_eq_false.mpr fun e he hrefers => hapart e he (root_of_refersTo hrefers)
  have hvalues : ∀ attr ∈ attributes,
      attributeValues env entry r.subsearchAttribute keys attr = entryValues env entry attr := by
    intro attr hattr
    obtain ⟨e, he, rfl⟩ := mem_attributesOf.mp (hattributes.mem_iff.mp hattr)
    exact attributeValues_entry (equalFold_other h (hattributes.mem_iff.mp hattr) (hapart e he))
  rw [correlated, hothers, subChoices, hnone, choices_congr hvalues]
  simp only [Bool.false_eq_true, if_false, List.map_singleton]
  rw [← List.map_eq_flatMap]
  refine ((choices_perm (hattributes.nodup_iff.mpr (nodup_attributesOf _)) hattributes ∅).map _).trans
    (.of_eq (List.map_congr_left fun values _ => ?_))
  rw [resolveExpressions_eq]
  refine valuesOf_congr hperm fun e he => ?_
  rw [expressionValue_other (hapart e he), valueOf_other (hapart e he)]

/-- All choices in the entry, with all choices in the sub-entries, as they are generated. -/
def generated (env : Env) (r : Result) (entry : Entry) (fmts : List Format) : List Values :=
  (choices (entryValues env entry) ∅
    ((attributesOf (expressionsOf fmts)).filter (· ≠ r.subsearchAttribute))).flatMap fun values =>
      (generatedChoices env r (expressionsOf fmts)).map fun subValues =>
        valuesOf (generatedValue env r.subsearchAttribute values subValues) (expressionsOf fmts)

/-- Formats that do, combine the keys of the choices in sub-entries. -/
theorem values_joined {o : Order} (hfold : Folds env)
    (h : Referring env r.subsearchAttribute (expressionsOf fmts))
    (hperm : expressions'.Perm (expressionsOf fmts))
    (hattributes : attributes.Perm (attributesOf (expressionsOf fmts)))
    (hkeys : keys.Perm (r.generateSubsearchValues env o expressions').keys)
    (hjoined : ∃ e ∈ expressionsOf fmts, root e = r.subsearchAttribute) :
    ((choices (attributeValues env entry r.subsearchAttribute keys) ∅ attributes).map fun values =>
      resolveExpressions env r.subsearchAttribute expressions' values
        (r.generateSubsearchValues env o expressions')).Perm (generated env r entry fmts) := by
  obtain ⟨e, he, hroot⟩ := hjoined
  have hrefers : (expressionsOf fmts).any (refersTo r.subsearchAttribute) = true :=
    List.any_eq_true.mpr ⟨e, he, h.refersTo hfold he hroot⟩
  -- the sub-search attribute comes first, with the keys as its values
  have hfirst : attributes.Perm (r.subsearchAttribute ::
      (attributesOf (expressionsOf fmts)).filter (· ≠ r.subsearchAttribute)) := by
    have hmem : r.subsearchAttribute ∈ attributesOf (expressionsOf fmts) :=
      mem_attributesOf.mpr ⟨e, he, hroot⟩
    have herase : (attributesOf (expressionsOf fmts)).erase r.subsearchAttribute =
        (attributesOf (expressionsOf fmts)).filter (· ≠ r.subsearchAttribute) := by
      rw [(nodup_attributesOf _).erase_eq_filter]
      exact List.filter_congr fun attr _ => by simp [bne, Bool.beq_eq_decide_eq]
    exact herase ▸ hattributes.trans (List.perm_cons_erase hmem)
  have hsub : attributeValues env entry r.subsearchAttribute keys r.subsearchAttribute = keys := by
    obtain ⟨hdn, hrdn⟩ := h.held ⟨e, he, hroot⟩
    simp [attributeValues, hdn, hrdn, hfold.refl]
  have hothers : ∀ attr ∈ (attributesOf (expressionsOf fmts)).filter (· ≠ r.subsearchAttribute),
      attributeValues env entry r.subsearchAttribute keys attr = entryValues env entry attr := by
    intro attr hattr
    obtain ⟨hattr, hne⟩ := List.mem_filter.mp hattr
    exact attributeValues_entry (equalFold_other h hattr (of_decide_eq_true hne))
  have hrows : keys.Perm ((subRows env o r expressions').map Prod.fst) :=
    hkeys.trans (generateSubsearchValues_eq ▸ Dict.keys_fill_perm subRows_keys)
  have hset : ∀ key : String, choices (attributeValues env entry r.subsearchAttribute keys)
      ((∅ : Values).insert r.subsearchAttribute key)
      ((attributesOf (expressionsOf fmts)).filter (· ≠ r.subsearchAttribute)) =
        (choices (entryValues env entry) ∅
          ((attributesOf (expressionsOf fmts)).filter (· ≠ r.subsearchAttribute))).map
            (·.insert r.subsearchAttribute key) := by
    intro key
    rw [choices_insert (by simp), choices_congr hothers]
  refine ((choices_perm (hattributes.nodup_iff.mpr (nodup_attributesOf _)) hfirst ∅).map _).trans ?_
  rw [choices, hsub, List.map_flatMap, generated]
  simp only [hset, List.map_map]
  generalize choices (entryValues env entry) ∅
    ((attributesOf (expressionsOf fmts)).filter (· ≠ r.subsearchAttribute)) = inEntry
  calc keys.flatMap (fun key => inEntry.map _)
    _ |>.Perm (((subRows env o r expressions').map Prod.fst).flatMap fun key => inEntry.map _) :=
      hrows.flatMap_right _
    _ = (subRows env o r expressions').flatMap fun row => inEntry.map fun values =>
        valuesOf (generatedValue env r.subsearchAttribute values row.2) (expressionsOf fmts) := by
      rw [List.flatMap_map]
      exact List.flatMap_congr fun row hrow => List.map_congr_left fun values _ =>
        resolve_row hfold h hperm hrow values
    _ = ((subRows env o r expressions').map Prod.snd).flatMap fun subValues =>
        inEntry.map fun values =>
          valuesOf (generatedValue env r.subsearchAttribute values subValues) (expressionsOf fmts) := by
      rw [List.flatMap_map]
    _ |>.Perm ((generatedChoices env r (expressionsOf fmts)).flatMap fun subValues =>
        inEntry.map fun values =>
          valuesOf (generatedValue env r.subsearchAttribute values subValues) (expressionsOf fmts)) :=
      (subRows_perm hrefers hperm).flatMap_right _
    _ |>.Perm _ := flatMap_map_comm _ _ _

/-- Where fields have names, what is generated is what is expected. -/
theorem generated_eq (hfold : Folds env) (h : Proper env r.subsearchAttribute (expressionsOf fmts))
    (hrefers : (expressionsOf fmts).any (refersTo r.subsearchAttribute) = true) :
    generated env r entry fmts = correlated env r entry fmts := by
  have hchoices : generatedChoices env r (expressionsOf fmts) = subChoices env r (expressionsOf fmts) := by
    rw [generatedChoices, subChoices, if_pos hrefers]
    refine List.flatMap_congr fun subEntry _ =>
      choices_congr (fun attr hattr => attributeValues_entry ?_) ∅
    obtain ⟨e, he, rfl⟩ := mem_attributesOf.mp hattr
    exact Bool.eq_false_iff.mpr fun hempty => h.subNamed e he (hfold.empty _ hempty)
  rw [generated, correlated, hchoices]
  refine List.flatMap_congr fun values _ => List.map_congr_left fun subValues _ => ?_
  refine valuesOf_congr (.refl _) fun e he => ?_
  by_cases hroot : root e = r.subsearchAttribute
  · have hrefers := h.refersTo hfold he hroot
    obtain ⟨rest, hdot, rfl⟩ := exists_rest hrefers
    rw [generatedValue, if_pos hrefers, valueOf, cut_append_dot hdot]
    simp [expressionValue_other (h.subNamed rest (mem_subExpressions_iff.mpr he))]
  · rw [generatedValue_other hroot, valueOf_other hroot]

/-- An attribute without a value, or no choice in the sub-entries, leaves nothing. -/
theorem correlated_eq_nil
    (h : (∃ attr ∈ attributesOf (expressionsOf fmts), attr ≠ r.subsearchAttribute ∧
      entryValues env entry attr = []) ∨ subChoices env r (expressionsOf fmts) = []) :
    correlated env r entry fmts = [] := by
  rw [correlated]
  rcases h with ⟨attr, hattr, hne, hnone⟩ | hnone
  · rw [choices_eq_nil (List.mem_filter.mpr ⟨hattr, decide_eq_true hne⟩) hnone, List.flatMap_nil]
  · exact List.flatMap_eq_nil_iff.mpr fun values _ => by rw [hnone, List.map_nil]

section Generate
variable (h : Referring env r.subsearchAttribute (expressionsOf fmts))
include h

theorem generateValues_apart (hfield : ∃ f ∈ fmts, f.isStatic = false)
    (hapart : ∀ e ∈ expressionsOf fmts, root e ≠ r.subsearchAttribute) (o : Order) :
    (r.generateValues env o entry fmts).Perm (correlated env r entry fmts) := by
  have hperm : (listExpressions (o.sub 0) fmts).Perm (expressionsOf fmts) := listExpressions_perm
  have hattributes := listVariables_perm (o := o.sub 1) hperm
  have hne : listVariables (o.sub 1) (listExpressions (o.sub 0) fmts) ≠ [] := fun hnil =>
    attributesOf_ne_nil (expressionsOf_ne_nil.mpr hfield) (List.nil_perm.mp (hnil ▸ hattributes))
  simp only [Result.generateValues, generateCombinations_eq hne]
  exact values_apart h hperm hattributes hapart

theorem generateValues_joined (hfold : Folds env) (hsub : r.subsearchAttribute ≠ "")
    (hjoined : ∃ e ∈ expressionsOf fmts, root e = r.subsearchAttribute) (o : Order) :
    (r.generateValues env o entry fmts).Perm (generated env r entry fmts) := by
  have hperm : (listExpressions (o.sub 0) fmts).Perm (expressionsOf fmts) := listExpressions_perm
  have hattributes := listVariables_perm (o := o.sub 1) hperm
  have hne : listVariables (o.sub 1) (listExpressions (o.sub 0) fmts) ≠ [] := fun hnil => by
    obtain ⟨e, he, _⟩ := hjoined
    exact attributesOf_ne_nil (List.ne_nil_of_mem he) (List.nil_perm.mp (hnil ▸ hattributes))
  simp only [Result.generateValues, generateCombinations_eq hne]
  rw [if_pos hsub]
  exact values_joined hfold h hperm hattributes (Order.range_perm _ _) hjoined

end Generate

/-- The order of the maps does not matter, as long as formats refer to the sub-search attribute
properly. -/
theorem generateValues_orders (hfold : Folds env)
    (h : r.subsearchAttribute ≠ "" → Referring env r.subsearchAttribute (expressionsOf fmts))
    (hfield : ∃ f ∈ fmts, f.isStatic = false) (o o' : Order) :
    (r.generateValues env o entry fmts).Perm (r.generateValues env o' entry fmts) := by
  by_cases hsub : r.subsearchAttribute = ""
  · exact (generateValues_perm hsub o hfield).trans (generateValues_perm hsub o' hfield).symm
  · by_cases hjoined : ∃ e ∈ expressionsOf fmts, root e = r.subsearchAttribute
    · exact (generateValues_joined (h hsub) hfold hsub hjoined o).trans
        (generateValues_joined (h hsub) hfold hsub hjoined o').symm
    · have hapart : ∀ e ∈ expressionsOf fmts, root e ≠ r.subsearchAttribute :=
        fun e he hroot => hjoined ⟨e, he, hroot⟩
      exact (generateValues_apart (h hsub) hfield hapart o).trans
        (generateValues_apart (h hsub) hfield hapart o').symm

/-- **Values are a correlated product**: each choice of values in the entry comes once with
each choice of a sub-entry and of values in it, every expression is read off the two,
and without a value to choose there is nothing. -/
theorem generateValues_correlated (hfold : Folds env)
    (h : Proper env r.subsearchAttribute (expressionsOf fmts))
    (hfield : ∃ f ∈ fmts, f.isStatic = false) (o : Order) :
    (r.generateValues env o entry fmts).Perm (correlated env r entry fmts) ∧
      ((∃ attr ∈ attributesOf (expressionsOf fmts), attr ≠ r.subsearchAttribute ∧
          entryValues env entry attr = []) ∨ subChoices env r (expressionsOf fmts) = [] →
        r.generateValues env o entry fmts = []) := by
  have hvalues : (r.generateValues env o entry fmts).Perm (correlated env r entry fmts) := by
    by_cases hjoined : ∃ e ∈ expressionsOf fmts, root e = r.subsearchAttribute
    · obtain ⟨e, he, hroot⟩ := hjoined
      have hrefers : (expressionsOf fmts).any (refersTo r.subsearchAttribute) = true :=
        List.any_eq_true.mpr ⟨e, he, h.refersTo hfold he hroot⟩
      rw [← generated_eq hfold h hrefers]
      exact generateValues_joined h.toReferring hfold (hroot ▸ h.named e he) ⟨e, he, hroot⟩ o
    · exact generateValues_apart h.toReferring hfield (fun e he hroot => hjoined ⟨e, he, hroot⟩) o
  exact ⟨hvalues, fun hnone => List.perm_nil.mp (correlated_eq_nil hnone ▸ hvalues)⟩

end Main

/-! A member of a group, with two addresses. -/
open Sample

def mailField : Format := ⟨"\x7bmember.mail\x7d", [.field { fieldName := "member.mail" }]⟩

def members : Result where
  entry := some group
  subsearchAttribute := "member"
  subsearchEntries := [⟨"cn=alice", [("mail", ["alice@acme", "alice@home"])]⟩]

theorem mails_correlated : (members.generateValues env Order.sorted group [mailField]).Perm
    (correlated env members group [mailField]) := by
  have hfold : Folds env := ⟨fun s => beq_self_eq_true s, fun s h => (eq_of_beq h).symm⟩
  have hproper : Proper env members.subsearchAttribute (expressionsOf [mailField]) :=
    ⟨⟨by decide +kernel, by decide +kernel⟩, by decide +kernel, by decide +kernel⟩
  exact (generateValues_correlated hfold hproper ⟨mailField, by decide +kernel, by decide⟩
    Order.sorted).1

/-- Without a dot, the sub-search attribute is given the keys for its values. -/
theorem keys_leak :
    (members.generateValues env Order.sorted group [memberField, mailField]).map
        (fun values => values["member"]?) = [some "subentry0-comb0", some "subentry0-comb1"] ∧
      ¬ (members.generateValues env Order.sorted group [memberField, mailField]).Perm
        (correlated env members group [memberField, mailField]) := by
  refine ⟨by decide +kernel, fun h => ?_⟩
  exact absurd (h.map fun values => values["member"]?) (by decide +kernel)

end Ldap2pg.Ldap.Correlated
