import Ldap2pg.Wanted.Load

/-! # The attributes a step asks for, and those it reads

`InferAttributes` decides from the fields which attributes to ask for, once for
entries and once for sub-entries. `GenerateValues` cuts the same fields again
when it reads an entry. `Restricts` says what a server that only returns what it
is asked for makes of that. -/
namespace Ldap2pg.Wanted.Attributes
open Lib Pyfmt Ldap Privileges Roles

variable {requested : List String} {s : Step} {subsearchAttr : String} {o : Order} {attr : String}

variable {env : Env}

/-- `GenerateCombinations` takes the values of the attribute from the entry, and
not from its DN or from the sub-entries. -/
def Reads (env : Env) (subsearchAttr attr : String) : Prop :=
  env.toLower attr ≠ "dn" ∧ env.toLower attr ∉ env.knownRDNs ∧
    env.equalFold subsearchAttr attr = false

/-- The formats that are given values together. -/
def formatGroups (s : Step) : List (List Format) :=
  s.roleRules.flatMap (fun r =>
    [r.name, r.comment, r.beforeCreate, r.afterCreate] :: r.parents.map fun m => [m]) ++
  s.grantRules.map GrantRule.formats

/-- The attribute is read from the entry. -/
def EntryReads (env : Env) (subsearchAttr : String) (s : Step) (attr : String) : Prop :=
  Reads env subsearchAttr attr ∧
    ∃ fmts ∈ formatGroups s, ∃ o o', attr ∈ listVariables o (listExpressions o' fmts)

/-- The attribute is read from the sub-entries. -/
def SubentryReads (env : Env) (subsearchAttr : String) (s : Step) (attr : String) : Prop :=
  Reads env "" attr ∧ ∃ fmts ∈ formatGroups s, ∃ o o',
    attr ∈ listVariables o (subExpressions subsearchAttr (listExpressions o' fmts))

/-- The attributes asked for in sub-searches. -/
def subAttributes (s : Step) (subsearchAttr : String) : List String :=
  ((s.ldapSearch.subsearches[subsearchAttr]?).map Subsearch.attributes).getD []

/-- A step that searches asks for all it reads. -/
structure AsksForAll (env : Env) (o : Order) (s : Step) : Prop where
  base : s.ldapSearch.subsearchAttribute o ≠ "" →
    s.ldapSearch.subsearchAttribute o ∈ s.ldapSearch.attributes
  entry : ∀ attr, EntryReads env (s.ldapSearch.subsearchAttribute o) s attr →
    attr ∈ s.ldapSearch.attributes
  subentry : s.ldapSearch.subsearchAttribute o ≠ "" → ∀ attr,
    SubentryReads env (s.ldapSearch.subsearchAttribute o) s attr →
      attr ∈ subAttributes s (s.ldapSearch.subsearchAttribute o)

/-! ## Which fields are read -/

theorem mem_formatGroups {f : Format} : (∃ fmts ∈ formatGroups s, f ∈ fmts) ↔ f ∈ s.formats := by
  simp only [formatGroups, Step.formats, List.mem_append, List.mem_flatMap, List.mem_map]
  constructor
  · rintro ⟨fmts, ⟨r, hr, hfmts⟩ | ⟨r, hr, rfl⟩, hf⟩
    · refine .inl ⟨r, hr, ?_⟩
      rcases List.mem_cons.mp hfmts with rfl | hfmts
      · exact List.mem_append_left _ hf
      · obtain ⟨m, hm, rfl⟩ := List.mem_map.mp hfmts
        exact List.mem_append_right _ (List.mem_singleton.mp hf ▸ hm)
    · exact .inr ⟨r, hr, hf⟩
  · rintro (⟨r, hr, hf⟩ | ⟨r, hr, hf⟩)
    · rcases List.mem_append.mp hf with hf | hf
      · exact ⟨_, .inl ⟨r, hr, List.mem_cons_self⟩, hf⟩
      · exact ⟨[f], .inl ⟨r, hr, List.mem_cons_of_mem _ (List.mem_map_of_mem hf)⟩,
          List.mem_singleton.mpr rfl⟩
    · exact ⟨_, .inr ⟨r, hr, rfl⟩, hf⟩

theorem mem_expressions {e : String} :
    (∃ fmts ∈ formatGroups s, ∃ o, e ∈ listExpressions o fmts) ↔ ∃ x ∈ s.fields, x.fieldName = e := by
  simp only [mem_listExpressions, Step.fields, List.mem_flatMap]
  constructor
  · rintro ⟨fmts, hfmts, _, f, hf, x, hx, he⟩
    exact ⟨x, ⟨f, mem_formatGroups.mp ⟨fmts, hfmts, hf⟩, hx⟩, he⟩
  · rintro ⟨x, ⟨f, hf, hx⟩, he⟩
    obtain ⟨fmts, hfmts, hf⟩ := mem_formatGroups.mpr hf
    exact ⟨fmts, hfmts, Order.sorted, f, hf, x, hx, he⟩

theorem entryReads_iff :
    EntryReads env subsearchAttr s attr ↔
      Reads env subsearchAttr attr ∧ ∃ x ∈ s.fields, root x.fieldName = attr := by
  refine and_congr_right fun _ => ?_
  simp only [mem_listVariables]
  constructor
  · intro ⟨fmts, hfmts, _, o', e, he, hroot⟩
    obtain ⟨x, hx, rfl⟩ := mem_expressions.mp ⟨fmts, hfmts, o', he⟩
    exact ⟨x, hx, hroot⟩
  · intro ⟨x, hx, hroot⟩
    obtain ⟨fmts, hfmts, o', he⟩ := mem_expressions.mpr ⟨x, hx, rfl⟩
    exact ⟨fmts, hfmts, Order.sorted, o', _, he, hroot⟩

/-- The rest of an expression on the sub-search attribute. -/
def Rest (subsearchAttr e rest : String) : Prop := e = subsearchAttr ++ "." ++ rest

theorem mem_subExpressions {rest : String} {expressions : List String} :
    rest ∈ subExpressions subsearchAttr expressions ↔ ∃ e ∈ expressions, Rest subsearchAttr e rest := by
  rw [mem_subExpressions_iff]
  exact ⟨fun h => ⟨_, h, rfl⟩, fun ⟨_, he, hrest⟩ => hrest ▸ he⟩

theorem subentryReads_iff :
    SubentryReads env subsearchAttr s attr ↔
      Reads env "" attr ∧ ∃ x ∈ s.fields, ∃ rest, Rest subsearchAttr x.fieldName rest ∧ root rest = attr := by
  refine and_congr_right fun _ => ?_
  simp only [mem_listVariables, mem_subExpressions]
  constructor
  · intro ⟨fmts, hfmts, _, o', rest, ⟨e, he, hrest⟩, hroot⟩
    obtain ⟨x, hx, rfl⟩ := mem_expressions.mp ⟨fmts, hfmts, o', he⟩
    exact ⟨x, hx, rest, hrest, hroot⟩
  · intro ⟨x, hx, rest, hrest, hroot⟩
    obtain ⟨fmts, hfmts, o', he⟩ := mem_expressions.mpr ⟨x, hx, rfl⟩
    exact ⟨fmts, hfmts, Order.sorted, o', rest, ⟨_, he, hrest⟩, hroot⟩

/-! ## What loading asks for -/

theorem subentryField_rest {rest : String} {x : Field} (h : Rest subsearchAttr x.fieldName rest) :
    subentryField subsearchAttr x = x := by
  have hdot : '.' ∈ x.fieldName.toList := by rw [h]; simp [String.toList_append]
  unfold subentryField
  simp [cut, hdot]

/-- A field is kept, or it is the sub-search attribute alone. -/
theorem subentryField_cases (subsearchAttr : String) (x : Field) :
    subentryField subsearchAttr x = x ∨
      x.fieldName = subsearchAttr ∧ '.' ∉ subsearchAttr.toList ∧
        (subentryField subsearchAttr x).fieldName = subsearchAttr ++ "." ++ "dn" := by
  unfold subentryField
  by_cases hdot : '.' ∈ x.fieldName.toList
  · left
    simp [cut, hdot]
  · rw [cut_of_not_mem hdot]
    simp only
    split
    case isTrue h =>
      refine .inr ⟨h.1, h.1 ▸ hdot, ?_⟩
      rw [h.1, String.append_assoc]
      rfl
    case isFalse => exact .inl rfl

theorem root_subentryField (subsearchAttr : String) (x : Field) :
    root (subentryField subsearchAttr x).fieldName = root x.fieldName := by
  rcases subentryField_cases subsearchAttr x with h | ⟨hname, hdot, h⟩
  · rw [h]
  · rw [h, root_append_dot hdot, hname, root, cut_of_not_mem hdot]

theorem mem_subFields {a : String} :
    a ∈ s.subFields subsearchAttr ↔ ∃ x ∈ s.fields, subField x = some (subsearchAttr, a) := by
  simp only [Step.subFields, List.mem_dedup, List.mem_map, List.mem_filter, List.mem_filterMap,
    decide_eq_true_eq]
  constructor
  · rintro ⟨⟨b, c⟩, ⟨⟨x, hx, h⟩, rfl⟩, rfl⟩
    exact ⟨x, hx, h⟩
  · intro ⟨x, hx, h⟩
    exact ⟨(subsearchAttr, a), ⟨⟨x, hx, h⟩, rfl⟩, rfl⟩

/-- With one sub-search at most there is no order to choose. -/
theorem subsearchAttribute_order {s : Search} (h : s.subsearches.size ≤ 1) (o o' : Order) :
    s.subsearchAttribute o = s.subsearchAttribute o' := by
  unfold Search.subsearchAttribute
  have hlen : s.subsearches.keys.length ≤ 1 := by rw [Std.ExtTreeMap.length_keys]; exact h
  match hkeys : s.subsearches.keys with
  | [] => simp
  | [a] => simp
  | a :: b :: l => rw [hkeys] at hlen; simp at hlen

/-- What a step that searches asks for once loaded. -/
structure Loaded (o : Order) (s s' : Step) : Prop where
  attributes : ∀ a, a ∈ s'.ldapSearch.attributes ↔ a ∈ s.roots
  fields : s'.fields = s.fields.map (subentryField (s'.ldapSearch.subsearchAttribute o))
  subAttributes : s'.ldapSearch.subsearchAttribute o ≠ "" → ∀ a,
    a ∈ subAttributes s' (s'.ldapSearch.subsearchAttribute o) ↔
      a ∈ s.subFields (s'.ldapSearch.subsearchAttribute o)

theorem mem_subAttributes (hroots : s.roots ≠ [])
    (hsubs : ∀ (k : String) (sub : Subsearch), s.ldapSearch.subsearches[k]? = some sub →
    sub.attributes = []) (subsearchAttr a : String) :
    a ∈ subAttributes (s.inferAttributes o) subsearchAttr ↔ a ∈ s.subFields subsearchAttr := by
  unfold subAttributes Step.inferAttributes
  rw [if_neg hroots]
  simp only [Dict.get_fill_id]
  split
  · simp
  case isFalse hnot =>
    have hnone : a ∉ s.subFields subsearchAttr := by
      intro ha
      obtain ⟨x, hx, hsub⟩ := mem_subFields.mp ha
      exact hnot (List.mem_map.mpr ⟨_, List.mem_filterMap.mpr ⟨x, hx, hsub⟩, rfl⟩)
    cases hk : s.ldapSearch.subsearches[subsearchAttr]? with
    | none => simp [hnone]
    | some sub => simp [hsubs _ sub hk, hnone]

theorem loaded_of_load {o' : Order} {s' : Step} (h : s.load o = .ok s') (hroots : s.roots ≠ [])
    (hsubs : ∀ (k : String) (sub : Subsearch), s.ldapSearch.subsearches[k]? = some sub →
    sub.attributes = []) : Loaded o' s s' := by
  unfold Step.load at h
  simp only at h
  split at h
  case isTrue => cases h
  case isFalse hsize =>
    cases h
    have horder := subsearchAttribute_order (not_lt.mp hsize) o' (o.sub 1)
    refine ⟨fun a => ?_, ?_, fun _ a => mem_subAttributes hroots hsubs _ a⟩
    · simp [Step.replaceAttributeAsSubentryField, Step.inferAttributes, hroots]
    · have hsame : (s.inferAttributes (o.sub 0)).fields = s.fields := by
        simp [Step.inferAttributes, hroots, Step.fields, Step.formats]
      rw [Step.replace_fields, hsame]
      exact congrArg (fun attr => s.fields.map (subentryField attr)) horder.symm

/-- The two decompositions of the fields agree. -/
structure Consistent (env : Env) (s : Step) (subsearchAttr : String) : Prop where
  /-- some field starts with the attribute that sub-searches start from -/
  base : subsearchAttr ≠ "" → subsearchAttr ∈ s.roots
  /-- an attribute read from sub-entries is the whole rest of some field, and not
  one of the RDNs that are known while loading -/
  subentry : subsearchAttr ≠ "" → ∀ x ∈ s.fields, ∀ rest, Rest subsearchAttr x.fieldName rest →
    Reads env "" (root rest) → root rest ∈ s.subFields subsearchAttr

theorem toLower_dn (env : Env) : env.toLower "dn" = "dn" := by
  refine env.toLower_letters "dn" fun c hc => ?_
  have hcases : c = 'd' ∨ c = 'n' := by simpa using hc
  rcases hcases with rfl | rfl
  · decide
  · decide

theorem asksForAll_iff {s' : Step} (h : Loaded o s s') :
    AsksForAll env o s' ↔ Consistent env s (s'.ldapSearch.subsearchAttribute o) := by
  constructor
  · intro hall
    refine ⟨fun hne => (h.attributes _).mp (hall.base hne), fun hne x hx rest hrest hread => ?_⟩
    have hx' : x ∈ s'.fields := by
      rw [h.fields]
      exact List.mem_map.mpr ⟨x, hx, subentryField_rest hrest⟩
    exact (h.subAttributes hne _).mp
      (hall.subentry hne _ (subentryReads_iff.mpr ⟨hread, x, hx', rest, hrest, rfl⟩))
  · intro hc
    refine ⟨fun hne => (h.attributes _).mpr (hc.base hne), fun attr hattr => ?_, fun hne attr hattr => ?_⟩
    · obtain ⟨hread, x', hx', hroot⟩ := entryReads_iff.mp hattr
      rw [h.fields] at hx'
      obtain ⟨x, hx, rfl⟩ := List.mem_map.mp hx'
      rw [root_subentryField] at hroot
      refine (h.attributes attr).mpr (Step.mem_roots.mpr ⟨fun hdn => ?_, x, hx, hroot⟩)
      exact hread.1 (hdn ▸ toLower_dn env)
    · obtain ⟨hread, x', hx', rest, hrest, hroot⟩ := subentryReads_iff.mp hattr
      rw [h.fields] at hx'
      obtain ⟨x, hx, rfl⟩ := List.mem_map.mp hx'
      rcases subentryField_cases (s'.ldapSearch.subsearchAttribute o) x with hsame | ⟨_, _, hdn⟩
      · rw [hsame] at hrest
        exact (h.subAttributes hne attr).mpr (hroot ▸ hc.subentry hne x hx rest hrest (hroot ▸ hread))
      · -- the DN of the sub-entry is not an attribute
        rw [Rest, hdn, String.append_right_inj] at hrest
        rw [← hroot, ← hrest] at hread
        exact absurd (toLower_dn env) hread.1

/-! ## A server that returns what it is asked for -/

/-- The entry with the requested attributes only. -/
def restrict (env : Env) (requested : List String) (entry : Entry) : Entry :=
  { entry with attributes := entry.attributes.filter fun a => requested.any (env.equalFold · a.1) }

/-- What stands for the attribute in an entry is requested. -/
def Covers (env : Env) (requested : List String) (attr : String) : Prop :=
  ∀ x, env.equalFold attr x = true → requested.any (env.equalFold · x) = true

theorem covers_of_mem (h : attr ∈ requested) :
    Covers env requested attr := fun _ hx => List.any_eq_true.mpr ⟨attr, h, hx⟩

theorem restrict_values (h : Covers env requested attr) (entry : Entry) :
    (restrict env requested entry).values env attr = entry.values env attr := by
  unfold Entry.values restrict
  simp only
  congr 2
  induction entry.attributes with
  | nil => rfl
  | cons a l ih =>
    by_cases ha : env.equalFold attr a.1 = true
    · simp only [List.filter_cons, h a.1 ha, if_true, List.find?_cons, ha]
    · rw [List.filter_cons]
      split
      · simp only [List.find?_cons, ha, ih]
      · simp only [List.find?_cons, ha, ih]

theorem restrict_combinations {attributes : List String}
    (h : ∀ a ∈ attributes, Reads env subsearchAttr a → Covers env requested a)
    (subKeys : List String) (entry : Entry) :
    generateCombinations env (restrict env requested entry) subsearchAttr attributes subKeys =
      generateCombinations env entry subsearchAttr attributes subKeys := by
  have hvalues : attributes.map (attributeValues env (restrict env requested entry) subsearchAttr subKeys) =
      attributes.map (attributeValues env entry subsearchAttr subKeys) := by
    refine List.map_congr_left fun a ha => ?_
    unfold attributeValues
    split
    · rfl
    case isFalse hdn =>
      split
      · rfl
      case isFalse hrdn =>
        split
        · rfl
        case isFalse hfold =>
          exact restrict_values (h a ha ⟨hdn, hrdn, by simpa using hfold⟩) entry
  rw [generateCombinations, hvalues]
  rfl

/-- What a server that only returns requested attributes makes of a result. -/
def restrictResult (env : Env) (s : Step) (r : Result) : Result :=
  { r with
    entry := r.entry.map (restrict env s.ldapSearch.attributes)
    subsearchEntries := r.subsearchEntries.map (restrict env (subAttributes s r.subsearchAttribute)) }

theorem restrict_subvalues {r : Result} {expressions : List String}
    (h : ∀ a ∈ listVariables o (subExpressions r.subsearchAttribute expressions), Reads env "" a →
    Covers env requested a) :
    { r with subsearchEntries := r.subsearchEntries.map (restrict env requested) }.generateSubsearchValues
        env o expressions = r.generateSubsearchValues env o expressions := by
  unfold Result.generateSubsearchValues
  simp only [List.zipIdx_map, List.foldl_map, Prod.map_fst, Prod.map_snd, id_eq,
    restrict_combinations h]

/-- Formats see the same values when what they read is requested. -/
theorem restrict_formats {r : Result} {subRequested : List String} {fmts : List Format}
    (hentry : ∀ a ∈ listVariables (o.sub 1) (listExpressions (o.sub 0) fmts), Reads env
    r.subsearchAttribute a → Covers env requested a)
    (hsub : r.subsearchAttribute ≠ "" → ∀ a ∈ listVariables (o.sub 2) (subExpressions
    r.subsearchAttribute (listExpressions (o.sub 0) fmts)), Reads env "" a → Covers env
    subRequested a) (entry : Entry) (first : Option Entry) :
    ({ entry := first, subsearchAttribute := r.subsearchAttribute,
       subsearchEntries := r.subsearchEntries.map (restrict env subRequested) } :
        Result).generateValues env o (restrict env requested entry) fmts =
      r.generateValues env o entry fmts := by
  have hvalues : r.subsearchAttribute ≠ "" →
      ({ entry := first, subsearchAttribute := r.subsearchAttribute,
         subsearchEntries := r.subsearchEntries.map (restrict env subRequested) } :
          Result).generateSubsearchValues env (o.sub 2) (listExpressions (o.sub 0) fmts) =
        r.generateSubsearchValues env (o.sub 2) (listExpressions (o.sub 0) fmts) :=
    fun hne => restrict_subvalues (hsub hne)
  unfold Result.generateValues
  by_cases hne : r.subsearchAttribute = ""
  · simp only [hne, ne_eq, not_true, if_false]
    rw [hne] at hentry
    rw [restrict_combinations hentry]
  · simp only [ne_eq, hne, not_false_eq_true, if_true]
    rw [restrict_combinations hentry, hvalues hne]

/-- **Nothing is hidden from a format.** -/
theorem restrict_generateValues (h : AsksForAll env o s) (r : Result)
    (hr : r.subsearchAttribute = s.ldapSearch.subsearchAttribute o) {entry : Entry}
    {fmts : List Format} (hfmts : fmts ∈ formatGroups s) (o' : Order) :
    (restrictResult env s r).generateValues env o' (restrict env s.ldapSearch.attributes entry) fmts =
      r.generateValues env o' entry fmts := by
  refine restrict_formats (fun a ha hread => ?_) (fun hne a ha hread => ?_) entry _
  · exact covers_of_mem (h.entry a ⟨hr ▸ hread, fmts, hfmts, _, _, ha⟩)
  · rw [hr] at hne ha ⊢
    exact covers_of_mem (h.subentry hne a ⟨hread, fmts, hfmts, _, _, ha⟩)

/-- **When inference covers evaluation.** A loaded step that searches asks for
every attribute that generation reads exactly when the two decompositions of its
fields agree. A server that only returns requested attributes then hides nothing
that a format uses. -/
theorem inference_covers_iff {o o' : Order} {item : Item} {s : Step}
    (h : item.toStep.load o = .ok s) (hs : s.hasLDAPSearch = true) (env : Env) :
    (AsksForAll env o' s ↔ Consistent env item.toStep (s.ldapSearch.subsearchAttribute o')) ∧
    (AsksForAll env o' s → ∀ r : Result,
      r.subsearchAttribute = s.ldapSearch.subsearchAttribute o' → ∀ entry,
        (r.subsearchAttribute ≠ "" →
          (restrict env s.ldapSearch.attributes entry).values env r.subsearchAttribute =
            entry.values env r.subsearchAttribute) ∧
        ∀ fmts ∈ formatGroups s, ∀ o'',
          (restrictResult env s r).generateValues env o''
              (restrict env s.ldapSearch.attributes entry) fmts =
            r.generateValues env o'' entry fmts) := by
  have hroots : item.toStep.roots ≠ [] := (Step.load_spec h rfl).2.mp hs
  have hsubs : ∀ (k : String) (sub : Subsearch),
      item.toStep.ldapSearch.subsearches[k]? = some sub → sub.attributes = [] := by
    intro k sub hk
    simp only [Item.toStep, Std.ExtTreeMap.getElem?_map, Option.map_eq_some_iff] at hk
    obtain ⟨join, _, rfl⟩ := hk
    rfl
  refine ⟨asksForAll_iff (loaded_of_load h hroots hsubs), fun hall r hr entry => ⟨fun hne => ?_, ?_⟩⟩
  · exact restrict_values (covers_of_mem (hr ▸ hall.base (hr ▸ hne))) entry
  · exact fun fmts hfmts o'' => restrict_generateValues hall r hr hfmts o''

section Sample
open Sample

/-- A role named after the RDN of the manager of each member. -/
def managerItem : Item where
  roleRules := [roleRule ⟨"\x7bmember.manager.cn\x7d", [.field { fieldName := "member.manager.cn" }]⟩ []]

/-- The sub-search asks for `manager.cn`, generation reads `manager`. -/
theorem manager_not_requested :
    ∃ s, managerItem.toStep.load Order.sorted = .ok s ∧ s.hasLDAPSearch = true ∧
      subAttributes s "member" = ["manager.cn"] ∧ SubentryReads Ldap.Sample.env "member" s "manager" := by
  refine ⟨_, rfl, rfl, by decide, subentryReads_iff.mpr ⟨⟨by decide, by decide, by decide⟩, ?_⟩⟩
  exact ⟨{ fieldName := "member.manager.cn" }, by decide, "manager.cn", rfl, by decide⟩

/-- A role named after an attribute of each member. -/
def mailItem : Item where
  roleRules := [roleRule ⟨"\x7bmember.mail\x7d", [.field { fieldName := "member.mail" }]⟩ []]

theorem mail_requested : ∃ s, mailItem.toStep.load Order.sorted = .ok s ∧
    AsksForAll Ldap.Sample.env Order.sorted s := by
  obtain ⟨s, h⟩ : ∃ s, mailItem.toStep.load Order.sorted = .ok s := ⟨_, rfl⟩
  refine ⟨s, h, (inference_covers_iff h ?_ Ldap.Sample.env).1.mpr ?_⟩
  · cases h; rfl
  · cases h
    refine ⟨fun _ => by decide, fun _ x hx rest hrest _ => ?_⟩
    have hname : x.fieldName = "member" ++ "." ++ "mail" := by
      have hfields : mailItem.toStep.fields = [{ fieldName := "member.mail" }] := rfl
      rw [hfields] at hx
      rw [List.mem_singleton.mp hx]
      rfl
    have hmail : rest = "mail" := by
      rw [Rest, hname] at hrest
      exact ((String.append_right_inj _).mp hrest).symm
    rw [hmail]
    decide

end Sample

end Ldap2pg.Wanted.Attributes
