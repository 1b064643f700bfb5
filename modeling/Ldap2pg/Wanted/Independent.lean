import Ldap2pg.Ldap.Correlated
import Ldap2pg.Wanted.Attributes
import Ldap2pg.Wanted.Count

/-! # A rule next to another

Attributes and sub-searches are inferred for a step as a whole. A rule added to a step can
turn on a search, or a sub-search that the other rules then go through: entries without
the attribute it starts from are passed over, and `{member}` becomes `{member.dn}`. -/
namespace Ldap2pg.Wanted.Independent
open Lib Pyfmt Ldap Ldap.Correlated Privileges Roles
open Wanted.Attributes Wanted.Count

variable {env : Env} {o : Order} {item item' : Item} {s s' : Step} {r : RoleRule} {e : Entry}
  {results : Result}

/-! ## 1. A directory, and the names a rule generates from it -/

/-- The entries that a search selects, by base, scope and filter. -/
abbrev Content := String → Scope → String → List Entry

variable {content : Content}

/-- Every search succeeds, and returns the attributes that it asks for. -/
def serve (env : Env) (content : Content) : Directory := fun _ q =>
  .ok ((content q.base q.scope q.filter).map (restrict env q.attributes))

/-- The attribute that the sub-searches of a loaded step start from, if any. -/
def fkey (s : Step) : String := s.ldapSearch.subsearchAttribute Order.sorted

/-- A rule as loading leaves it in the step. -/
def loadedRule (s : Step) (r : RoleRule) : RoleRule := r.mapFields (subentryField (fkey s))

/-- The names of the roles that a rule sends for a result. -/
def sentNames (env : Env) (o : Order) (r : RoleRule) (results : Result) : List String :=
  match r.generate env o results with
  | .error _ => []
  | .ok sent => sent.filterMap fun
    | .parents _ => none
    | .role _ head _ => some head.name

/-- The names that a rule generates in a loaded step, once static rules are split. -/
def generatedNames (env : Env) (o : Order) (content : Content) (s : Step) (r : RoleRule) :
    Set String :=
  {n | ∃ t ∈ s.splitStaticItems, loadedRule s r ∈ t.roleRules ∧
    ∃ results, .ok results ∈ t.search env o (serve env content) ∧
      n ∈ sentNames env o (loadedRule s r) results}

/-! ## 2. When a rule has a name to send -/

/-- An attribute of the formats gets values in the step: from the DN, from the entry, or
from the sub-entries if the formats refer to these and the sub-searches ask for what is
read there. -/
def Fed (env : Env) (s : Step) (fmts : List Format) (attr : String) : Prop :=
  env.toLower attr = "dn" ∨ env.toLower attr ∈ env.knownRDNs ∨
    (env.equalFold (fkey s) attr = true →
      fkey s ≠ "" ∧ subExpressions (fkey s) (expressionsOf fmts) ≠ [] ∧
        ∀ b ∈ attributesOf (subExpressions (fkey s) (expressionsOf fmts)),
          env.toLower b = "dn" ∨ env.toLower b ∈ env.knownRDNs ∨
            env.equalFold "" b = false ∧ ∃ q ∈ subAttributes s (fkey s), env.equalFold b q = true)

/-- The rule has no name to send in the step, whatever the directory holds: the formats of
the role have no field or one that gets no value, or there is no entry to render a
parent with. -/
def Mute (env : Env) (s : Step) (r : RoleRule) : Prop :=
  if s.hasLDAPSearch = true then
    (∀ f ∈ headFormats r, f.isStatic = true) ∨
      ∃ attr ∈ attributesOf (expressionsOf (headFormats (loadedRule s r))),
        ¬ Fed env s (headFormats (loadedRule s r)) attr
  else ∃ m ∈ r.parents, m.isStatic = false

section Names

theorem sentNames_entry {entry : Entry} (h : results.entry = some entry) :
    sentNames env o r results = (results.generateValues env (o.sub 1) entry (headFormats r)).map
      (r.name.render env.toStrings) := by
  obtain ⟨sent, hsent⟩ : ∃ sent, r.generate env o results = .ok sent :=
    RoleRule.generate_ok env o (.inl (by rw [h]; rfl))
  have hgenerate := hsent
  unfold RoleRule.generate at hgenerate
  obtain ⟨parents, _, hheads⟩ := bind_eq_ok.mp hgenerate
  cases hheads
  unfold sentNames
  rw [hsent, RoleRule.generateHeads, h]
  simp only [List.filterMap_cons, List.filterMap_map, List.map_map]
  exact List.filterMap_eq_map ▸ rfl

theorem sentNames_raw (h : results.entry = none) (hparents : ∀ m ∈ r.parents, m.isStatic = true) :
    sentNames env o r results = [r.name.string] := by
  have hok : ∀ mi ∈ r.parents.zipIdx,
      ∃ l, generateParent env ((o.sub 0).sub mi.2) results mi.1 = .ok l := fun mi hmi =>
    generateParent_ok env _ (.inr (hparents mi.1 (List.fst_mem_of_mem_zipIdx hmi)))
  obtain ⟨parents, hparents⟩ := exists_mapM_ok hok
  unfold sentNames RoleRule.generate RoleRule.generateParents RoleRule.generateHeads
  rw [hparents, h]
  rfl

/-- A parent with a field cannot be rendered without an entry. -/
theorem sentNames_panic (h : results.entry = none) {m : Format} (hm : m ∈ r.parents)
    (hdynamic : m.isStatic = false) : sentNames env o r results = [] := by
  unfold sentNames
  split
  · rfl
  case h_2 sent hsent =>
    exfalso
    obtain ⟨parents, hparents, _⟩ := bind_eq_ok.mp hsent
    obtain ⟨lists, hlists, _⟩ := bind_eq_ok.mp hparents
    obtain ⟨i, hi⟩ := exists_mem_zipIdx hm
    obtain ⟨l, _, hl⟩ := mem_mapM_ok hlists hi
    simp only [generateParent, h, format_none_dynamic hdynamic] at hl
    cases hl

end Names

section Values
variable {r : Result} {entry : Entry} {fmts : List Format}

theorem listVariables_ne_nil_iff {expressions expressions' : List String}
    (h : expressions.Perm expressions') : listVariables o expressions ≠ [] ↔ expressions' ≠ [] := by
  rw [not_iff_not, ← List.length_eq_zero_iff, (listVariables_perm h).length_eq,
    List.length_eq_zero_iff]
  simp [attributesOf, List.dedup_eq_nil]

theorem combinations_ne_nil_iff {sub : String} {attributes keys : List String} :
    generateCombinations env entry sub attributes keys ≠ [] ↔
      attributes ≠ [] ∧ ∀ a ∈ attributes, attributeValues env entry sub keys a ≠ [] := by
  by_cases hnil : attributes = []
  · simp [hnil, generateCombinations]
  · rw [generateCombinations_eq hnil]
    refine ⟨fun h => ⟨hnil, fun a ha hnone => h (choices_eq_nil ha hnone ∅)⟩, fun h => ?_⟩
    exact choices_ne_nil h.2 ∅

/-- The keys that stand for the values of the sub-search attribute. -/
def subKeys (env : Env) (o : Order) (r : Result) (fmts : List Format) : List String :=
  (o.sub 3).range (if r.subsearchAttribute ≠ "" then
    r.generateSubsearchValues env (o.sub 2) (listExpressions (o.sub 0) fmts) else ∅).keys

/-- Formats get values when each of their attributes has one. -/
theorem values_ne_nil_iff : r.generateValues env o entry fmts ≠ [] ↔
    (∃ f ∈ fmts, f.isStatic = false) ∧ ∀ a ∈ attributesOf (expressionsOf fmts),
      attributeValues env entry r.subsearchAttribute (subKeys env o r fmts) a ≠ [] := by
  have hattributes : (listVariables (o.sub 1) (listExpressions (o.sub 0) fmts)).Perm
      (attributesOf (expressionsOf fmts)) := listVariables_perm listExpressions_perm
  unfold Result.generateValues
  rw [ne_eq, List.map_eq_nil_iff, ← ne_eq, combinations_ne_nil_iff,
    listVariables_ne_nil_iff listExpressions_perm, expressionsOf_ne_nil]
  simp only [hattributes.mem_iff]
  rfl

/-- There are keys when some sub-entry gives values to what is read of it. -/
theorem subKeys_ne_nil_iff : subKeys env o r fmts ≠ [] ↔
    r.subsearchAttribute ≠ "" ∧ subExpressions r.subsearchAttribute (expressionsOf fmts) ≠ [] ∧
      ∃ se ∈ r.subsearchEntries,
        ∀ b ∈ attributesOf (subExpressions r.subsearchAttribute (expressionsOf fmts)),
          attributeValues env se "" [] b ≠ [] := by
  have hsub : (subExpressions r.subsearchAttribute (listExpressions (o.sub 0) fmts)).Perm
      (subExpressions r.subsearchAttribute (expressionsOf fmts)) :=
    listExpressions_perm.filterMap _
  have hkeys : (r.generateSubsearchValues env (o.sub 2) (listExpressions (o.sub 0) fmts)).keys.Perm
      ((subRows env (o.sub 2) r (listExpressions (o.sub 0) fmts)).map Prod.fst) :=
    generateSubsearchValues_eq ▸ Dict.keys_fill_perm subRows_keys
  by_cases hnone : r.subsearchAttribute = ""
  · have hempty : (∅ : Dict Values).keys = [] := rfl
    simp [subKeys, hnone, hempty]
  · have hrows : subKeys env o r fmts = [] ↔
        ∀ se ∈ r.subsearchEntries, generateCombinations env se "" (listVariables (o.sub 2)
          (subExpressions r.subsearchAttribute (listExpressions (o.sub 0) fmts))) [] = [] := by
      rw [subKeys, if_pos hnone, ← List.length_eq_zero_iff,
        ((Order.range_perm _ _).trans hkeys).length_eq, List.length_map,
        ← List.length_map (f := Prod.snd), subRows_choices, List.length_eq_zero_iff,
        List.flatMap_eq_nil_iff]
    simp only [ne_eq, hrows, not_forall, hnone, not_false_eq_true, true_and]
    simp only [← ne_eq, combinations_ne_nil_iff, listVariables_ne_nil_iff hsub, exists_prop,
      (listVariables_perm hsub).mem_iff]
    constructor
    · exact fun ⟨se, hse, hne, h⟩ => ⟨hne, se, hse, h⟩
    · exact fun ⟨hne, se, hse, h⟩ => ⟨se, hse, hne, h⟩

end Values

/-! ## 3. What loading infers -/

theorem subField_root {x : Field} {a rest : String} (h : subField x = some (a, rest)) :
    root x.fieldName = a ∧ a ≠ "dn" := by
  unfold subField at h
  simp only [Option.ite_none_left_eq_some, Option.some.injEq, Prod.mk.injEq, not_or] at h
  exact ⟨h.2.1, h.2.1 ▸ h.1.1⟩

theorem subsearchAttribute_mem {s : Search} (o : Order) (h : s.subsearchAttribute o ≠ "") :
    s.subsearchAttribute o ∈ s.subsearches := by
  unfold Search.subsearchAttribute at h ⊢
  cases hrange : o.range s.subsearches.keys with
  | nil => rw [hrange] at h; exact absurd rfl h
  | cons k l =>
    have hk : k ∈ o.range s.subsearches.keys := by rw [hrange]; exact List.mem_cons_self
    simpa using hk

/-- With one sub-search at most, it is the one. -/
theorem subsearchAttribute_eq {s : Search} (hsize : s.subsearches.size ≤ 1) {k : String}
    (hk : k ∈ s.subsearches) (o : Order) : s.subsearchAttribute o = k := by
  have hlen : s.subsearches.keys.length ≤ 1 := by rw [Std.ExtTreeMap.length_keys]; exact hsize
  have hmem : k ∈ s.subsearches.keys := by simpa using hk
  unfold Search.subsearchAttribute
  match hkeys : s.subsearches.keys with
  | [] => rw [hkeys] at hmem; cases hmem
  | [a] =>
    rw [hkeys] at hmem
    simp [List.mem_singleton.mp hmem]
  | a :: b :: l => rw [hkeys] at hlen; simp at hlen

/-- The attributes that fields trigger a sub-search on. -/
def subFirsts (fields : List Field) : List String := (fields.filterMap subField).map Prod.fst

theorem mem_subFirsts {fields : List Field} {k : String} :
    k ∈ subFirsts fields ↔ ∃ x ∈ fields, ∃ rest, subField x = some (k, rest) := by
  simp only [subFirsts, List.mem_map, List.mem_filterMap]
  constructor
  · rintro ⟨⟨_, rest⟩, ⟨x, hx, h⟩, rfl⟩
    exact ⟨x, hx, rest, h⟩
  · intro ⟨x, hx, rest, h⟩
    exact ⟨(k, rest), ⟨x, hx, h⟩, rfl⟩

theorem subFirsts_of_roots (h : s.roots = []) : subFirsts s.fields = [] := by
  refine List.eq_nil_iff_forall_not_mem.mpr fun k hk => ?_
  obtain ⟨x, hx, rest, hsub⟩ := mem_subFirsts.mp hk
  exact (subField_root hsub).2 ((subField_root hsub).1 ▸ Step.roots_eq_nil.mp h x hx)

theorem inferAttributes_subsearches {o : Order} (k : String) :
    (s.inferAttributes o).ldapSearch.subsearches[k]? =
      if k ∈ subFirsts s.fields then
        some { s.ldapSearch.subsearches[k]?.getD ⟨"(objectClass=*)", .sub, []⟩ with
               attributes := (o.sub 1).range (s.subFields k) }
      else s.ldapSearch.subsearches[k]? := by
  unfold Step.inferAttributes
  by_cases hroots : s.roots = []
  · rw [if_pos hroots, subFirsts_of_roots hroots, if_neg List.not_mem_nil]
  · rw [if_neg hroots]
    simp only [Dict.get_fill_id]
    rfl

theorem toStep_subsearches (k : String) : item.toStep.ldapSearch.subsearches[k]? =
    item.joins[k]?.map fun join => ⟨join.1, join.2, []⟩ := by
  simp [Item.toStep]

/-- **A loaded step**, in terms of the fields of its rules and of the configured joins. -/
structure LoadSpec (item : Item) (s : Step) : Prop where
  search : s.hasLDAPSearch = true ↔ item.toStep.roots ≠ []
  base : s.ldapSearch.base = item.base
  scope : s.ldapSearch.scope = item.scope
  filter : s.ldapSearch.filter = item.filter
  attributes : ∀ a, a ∈ s.ldapSearch.attributes ↔ a ∈ item.toStep.roots
  order : ∀ o, s.ldapSearch.subsearchAttribute o = fkey s
  rules : s.roleRules = item.roleRules.map (loadedRule s)
  grants : s.grantRules = item.grantRules.map (mapGrantFields (subentryField (fkey s)))
  fields : s.fields = [] ↔ item.toStep.fields = []
  fkey_mem : fkey s ≠ "" → fkey s ∈ subFirsts item.toStep.fields ∨ fkey s ∈ item.joins
  fkey_eq : ∀ k, k ∈ subFirsts item.toStep.fields ∨ k ∈ item.joins → fkey s = k
  subsearches : ∀ k : String,
    s.ldapSearch.subsearches[k]?.map (fun sub => (sub.filter, sub.scope)) =
      if k ∈ subFirsts item.toStep.fields then some (item.joins[k]?.getD ("(objectClass=*)", .sub))
      else item.joins[k]?
  subAttributes : ∀ k a, a ∈ subAttributes s k ↔ a ∈ item.toStep.subFields k

theorem mem_inferred_subsearches {o : Order} {k : String} :
    k ∈ (item.toStep.inferAttributes o).ldapSearch.subsearches ↔
      k ∈ subFirsts item.toStep.fields ∨ k ∈ item.joins := by
  rw [Dict.mem_iff, inferAttributes_subsearches, toStep_subsearches]
  by_cases hk : k ∈ subFirsts item.toStep.fields
  · simp [hk]
  · simp [hk, Dict.mem_iff]

/-- With one attribute at most to sub-search on, loading succeeds. -/
theorem exists_load {a : String}
    (h : ∀ k, k ∈ subFirsts item.toStep.fields ∨ k ∈ item.joins → k = a) (o : Order) :
    ∃ s, item.toStep.load o = .ok s := by
  have hall : ∀ k ∈ (item.toStep.inferAttributes (o.sub 0)).ldapSearch.subsearches.keys, k = a :=
    fun k hk => h k (mem_inferred_subsearches.mp (by simpa using hk))
  have hsize : ¬ 1 < (item.toStep.inferAttributes (o.sub 0)).ldapSearch.subsearches.size := by
    rw [← Std.ExtTreeMap.length_keys, not_lt]
    have hnodup := Std.ExtTreeMap.nodup_keys
      (t := (item.toStep.inferAttributes (o.sub 0)).ldapSearch.subsearches)
    match hkeys : (item.toStep.inferAttributes (o.sub 0)).ldapSearch.subsearches.keys with
    | [] => exact Nat.zero_le _
    | [_] => exact Nat.le_refl _
    | k :: k' :: l =>
      rw [hkeys] at hall hnodup
      have hsame : k = k' := (hall k (by simp)).trans (hall k' (by simp)).symm
      simp [hsame] at hnodup
  exact ⟨_, if_neg hsize⟩

theorem loadSpec_of_load {o : Order} (h : item.toStep.load o = .ok s) : LoadSpec item s := by
  obtain ⟨hfields, hsearch⟩ := Step.load_spec h rfl
  unfold Step.load at h
  simp only at h
  split at h
  · cases h
  case isFalse hsize =>
    have hle := not_lt.mp hsize
    have hattributes : ∀ a, a ∈ (item.toStep.inferAttributes (o.sub 0)).ldapSearch.attributes ↔
        a ∈ item.toStep.roots := by
      intro a
      unfold Step.inferAttributes
      split
      case isTrue hroots => rw [hroots]; rfl
      case isFalse => simp
    have hkept : ∀ {β : Type} (g : Step → β),
        (∀ s' : Step, ∀ l : Search, l.base = s'.ldapSearch.base → l.scope = s'.ldapSearch.scope →
          l.filter = s'.ldapSearch.filter → g { s' with ldapSearch := l } = g s') →
        g (item.toStep.inferAttributes (o.sub 0)) = g item.toStep := by
      intro β g hg
      unfold Step.inferAttributes
      split
      · rfl
      · exact hg _ _ rfl rfl rfl
    cases h
    have horder : ∀ o', (item.toStep.inferAttributes (o.sub 0)).ldapSearch.subsearchAttribute o' =
        (item.toStep.inferAttributes (o.sub 0)).ldapSearch.subsearchAttribute Order.sorted :=
      fun o' => subsearchAttribute_order hle o' _
    refine ⟨hsearch, hkept (·.ldapSearch.base) fun _ _ h _ _ => h,
      hkept (·.ldapSearch.scope) fun _ _ _ h _ => h, hkept (·.ldapSearch.filter) fun _ _ _ _ h => h,
      hattributes, horder, ?_, ?_, hfields, fun hne => ?_, fun k hk => ?_, fun k => ?_, fun k a => ?_⟩
    · have hrules := hkept Step.roleRules fun _ _ _ _ _ => rfl
      simp only [Step.replaceAttributeAsSubentryField, hrules, horder (o.sub 1)]
      rfl
    · have hgrants := hkept Step.grantRules fun _ _ _ _ _ => rfl
      simp only [Step.replaceAttributeAsSubentryField, hgrants, horder (o.sub 1)]
      rfl
    · exact mem_inferred_subsearches.mp (subsearchAttribute_mem Order.sorted hne)
    · exact subsearchAttribute_eq hle (mem_inferred_subsearches.mpr hk) _
    · have hget := inferAttributes_subsearches (o := o.sub 0) (s := item.toStep) k
      rw [toStep_subsearches] at hget
      change (item.toStep.inferAttributes (o.sub 0)).ldapSearch.subsearches[k]?.map _ = _
      rw [hget]
      split
      · cases item.joins[k]? <;> rfl
      · cases item.joins[k]? <;> rfl
    · have hget := inferAttributes_subsearches (o := o.sub 0) (s := item.toStep) k
      rw [toStep_subsearches] at hget
      change a ∈ ((item.toStep.inferAttributes (o.sub 0)).ldapSearch.subsearches[k]?.map
        Subsearch.attributes).getD [] ↔ _
      rw [hget]
      split
      · simp
      case isFalse hk =>
        have hnone : a ∉ item.toStep.subFields k := fun ha => by
          obtain ⟨x, hx, hsub⟩ := mem_subFields.mp ha
          exact hk (mem_subFirsts.mpr ⟨x, hx, a, hsub⟩)
        cases item.joins[k]? <;> simp [hnone]

/-- A loaded step without joins. -/
structure Inferred (item : Item) (s : Step) : Prop extends LoadSpec item s where
  joins : item.joins = ∅

theorem Inferred.exists_trigger (hs : Inferred item s) (h : fkey s ≠ "") :
    ∃ x ∈ item.toStep.fields, ∃ rest, subField x = some (fkey s, rest) := by
  refine mem_subFirsts.mp ((hs.fkey_mem h).resolve_right fun hmem => ?_)
  rw [hs.joins] at hmem
  simp at hmem

theorem Inferred.sub (hs : Inferred item s) (h : fkey s ≠ "") :
    ∃ attributes, s.ldapSearch.subsearches[fkey s]? = some ⟨"(objectClass=*)", .sub, attributes⟩ := by
  have hsub := hs.subsearches (fkey s)
  rw [if_pos (mem_subFirsts.mpr (hs.exists_trigger h)), hs.joins, Dict.get_empty,
    Option.map_eq_some_iff] at hsub
  obtain ⟨⟨filter, scope, attributes⟩, hget, hpair⟩ := hsub
  cases hpair
  exact ⟨attributes, hget⟩

theorem Inferred.fkey_mem_attributes (hs : Inferred item s) (h : fkey s ≠ "") :
    fkey s ∈ s.ldapSearch.attributes := by
  obtain ⟨x, hx, rest, hsub⟩ := hs.exists_trigger h
  obtain ⟨hroot, hdn⟩ := subField_root hsub
  exact (hs.attributes _).mpr (Step.mem_roots.mpr ⟨hdn, x, hx, hroot⟩)

/-! ## 4. The names that come out of a step -/

section Search

/-- A result made of an entry of the directory, and of one of its sub-searches if any. -/
def Served (env : Env) (content : Content) (s : Step) (e : Entry) (results : Result) : Prop :=
  let entry := some (restrict env s.ldapSearch.attributes e)
  if fkey s = "" then results = { entry }
  else ∃ base ∈ e.values env (fkey s), results =
    { entry, subsearchAttribute := fkey s
      subsearchEntries := (content base .sub "(objectClass=*)").map
        (restrict env (subAttributes s (fkey s))) }

theorem served_plain (hkey : fkey s = "") (e : Entry) :
    Served env content s e { entry := some (restrict env s.ldapSearch.attributes e) } := by
  rw [Served, if_pos hkey]

theorem served_sub (hkey : fkey s ≠ "") {base : String} (hbase : base ∈ e.values env (fkey s)) :
    Served env content s e
      { entry := some (restrict env s.ldapSearch.attributes e), subsearchAttribute := fkey s
        subsearchEntries := (content base .sub "(objectClass=*)").map
          (restrict env (subAttributes s (fkey s))) } := by
  rw [Served, if_neg hkey]
  exact ⟨base, hbase, rfl⟩

theorem mem_search_iff (hs : Inferred item s) (hsearch : s.hasLDAPSearch = true) :
    .ok results ∈ s.search env o (serve env content) ↔
      ∃ e ∈ content item.base item.scope item.filter, Served env content s e results := by
  have hrequest : serve env content [0] s.request =
      .ok ((content item.base item.scope item.filter).map (restrict env s.ldapSearch.attributes)) := by
    rw [serve, Step.request, hs.base, hs.scope, hs.filter]
  rw [Step.search, if_neg (by simp [hsearch]), hrequest, hs.order]
  simp only [List.mem_flatMap]
  by_cases hkey : fkey s = ""
  · simp only [Served, hkey, if_true, List.mem_singleton, Except.ok.injEq]
    constructor
    · intro ⟨ei, hei, h⟩
      obtain ⟨e, he, hentry⟩ := List.mem_map.mp (List.fst_mem_of_mem_zipIdx hei)
      exact ⟨e, he, hentry ▸ h⟩
    · intro ⟨e, he, h⟩
      obtain ⟨i, hi⟩ := exists_mem_zipIdx (List.mem_map_of_mem
        (f := restrict env s.ldapSearch.attributes) he)
      exact ⟨_, hi, h⟩
  · obtain ⟨attributes, hsub⟩ := hs.sub hkey
    have hanswer : ∀ site base, serve env content site (s.subRequest (fkey s) base) =
        .ok ((content base .sub "(objectClass=*)").map (restrict env (subAttributes s (fkey s)))) := by
      intro site base
      simp only [serve, Step.subRequest, subAttributes, hsub, Option.getD_some, Option.map_some]
    have hvalues : ∀ e : Entry, (restrict env s.ldapSearch.attributes e).values env (fkey s) =
        e.values env (fkey s) := restrict_values (covers_of_mem (hs.fkey_mem_attributes hkey))
    simp only [Served, hkey, if_false, List.mem_map, hanswer, Except.ok.injEq]
    constructor
    · intro ⟨ei, hei, bj, hbj, h⟩
      obtain ⟨e, he, hentry⟩ := List.mem_map.mp (List.fst_mem_of_mem_zipIdx hei)
      have hbase := List.fst_mem_of_mem_zipIdx hbj
      rw [← hentry, hvalues] at hbase
      exact ⟨e, he, bj.1, hbase, hentry ▸ h.symm⟩
    · intro ⟨e, he, base, hbase, h⟩
      obtain ⟨i, hi⟩ := exists_mem_zipIdx (List.mem_map_of_mem
        (f := restrict env s.ldapSearch.attributes) he)
      obtain ⟨j, hj⟩ := exists_mem_zipIdx ((hvalues e).symm ▸ hbase)
      exact ⟨_, hi, (base, j), hj, h.symm⟩

theorem loadedRule_isStatic : (loadedRule s r).isStatic = r.isStatic := by
  simp [loadedRule, RoleRule.isStatic, RoleRule.mapFields_formats, List.all_map, Function.comp_def]

theorem Inferred.loadedRule_mem (hs : Inferred item s) (hr : r ∈ item.roleRules) :
    loadedRule s r ∈ s.roleRules := hs.rules ▸ List.mem_map_of_mem hr

/-- A rule with a field stays under the search of the step. -/
theorem mem_generatedNames (hs : Inferred item s) (hr : r ∈ item.roleRules)
    (hdynamic : r.isStatic = false) {n : String} : n ∈ generatedNames env o content s r ↔
      ∃ results, .ok results ∈ s.search env o (serve env content) ∧
        n ∈ sentNames env o (loadedRule s r) results := by
  have hrule : (loadedRule s r).isStatic = false := loadedRule_isStatic.trans hdynamic
  have hmem := hs.loadedRule_mem hr
  unfold generatedNames
  rcases s.splitStaticItems_cases with ⟨hsplit, _⟩ | hsplit
  · simp [hsplit, hmem]
  · have hsame : s.dynamicPart.search env o (serve env content) =
        s.search env o (serve env content) := rfl
    have hpart : loadedRule s r ∈ s.dynamicPart.roleRules :=
      List.mem_filter.mpr ⟨hmem, by simp [hrule]⟩
    have hother : loadedRule s r ∉ s.staticPart.roleRules := by simp [Step.staticPart, hrule]
    simp [hsplit, hpart, hother, hsame]

/-- A rule without a field is generated once, without an entry. -/
theorem generatedNames_static (hs : Inferred item s) (hr : r ∈ item.roleRules)
    (hstatic : r.isStatic = true) : generatedNames env o content s r = {r.name.string} := by
  have hrule : (loadedRule s r).isStatic = true := loadedRule_isStatic.trans hstatic
  have hmem := hs.loadedRule_mem hr
  have hnames : sentNames env o (loadedRule s r) {} = [r.name.string] :=
    sentNames_raw rfl fun m hm => RoleRule.static_formats hrule m (List.mem_append_right _ hm)
  have hraw : ∀ t : Step, t.hasLDAPSearch = false →
      t.search env o (serve env content) = [.ok {}] := fun t ht => by rw [Step.search, if_pos ht]
  ext n
  unfold generatedNames
  rcases s.splitStaticItems_cases with ⟨hsplit, hpart⟩ | hsplit
  · have hnone : s.hasLDAPSearch = false := by
      rcases hpart with ⟨hroles, _⟩ | ⟨hroles, hgrants⟩
      · exact absurd (hroles ▸ List.mem_filter.mpr ⟨hmem, hrule⟩ : loadedRule s r ∈ []) (by simp)
      · have hfields : s.fields = [] := Step.fields_eq_nil.mpr
          ⟨by simpa [Step.dynamicPart] using hroles, by simpa [Step.dynamicPart] using hgrants⟩
        have hroots : item.toStep.roots = [] := Step.roots_eq_nil.mpr fun f hf => by
          rw [hs.fields.mp hfields] at hf
          cases hf
        rw [← Bool.not_eq_true, hs.search, hroots]
        simp
    simp [hsplit, hmem, hraw s hnone, hnames]
  · have hpart : loadedRule s r ∈ s.staticPart.roleRules := List.mem_filter.mpr ⟨hmem, hrule⟩
    have hother : loadedRule s r ∉ s.dynamicPart.roleRules := by simp [Step.dynamicPart, hrule]
    simp [hsplit, hpart, hother, hraw s.staticPart rfl, hnames]

/-- A result of the step comes from an entry, and from a sub-search on its attribute. -/
theorem Served.entry_eq (h : Served env content s e results) :
    results.entry = some (restrict env s.ldapSearch.attributes e) ∧
      results.subsearchAttribute = fkey s := by
  unfold Served at h
  simp only at h
  split at h
  case isTrue hkey => rw [h]; exact ⟨rfl, hkey.symm⟩
  case isFalse =>
    obtain ⟨_, _, rfl⟩ := h
    exact ⟨rfl, rfl⟩

theorem attributeValues_ne_nil_iff {entry : Entry} {sub a : String} {keys : List String} :
    attributeValues env entry sub keys a ≠ [] ↔
      env.toLower a = "dn" ∨ env.toLower a ∈ env.knownRDNs ∨
        if env.equalFold sub a = true then keys ≠ [] else entry.values env a ≠ [] := by
  unfold attributeValues
  by_cases hdn : env.toLower a = "dn"
  · simp [hdn]
  · by_cases hrdn : env.toLower a ∈ env.knownRDNs
    · simp [hdn, hrdn]
    · simp only [hdn, hrdn, if_false, false_or]
      split <;> rfl

/-- A rule sends a name for a result when every attribute of its formats has a value. -/
theorem sentNames_ne_nil_iff (h : Served env content s e results) :
    sentNames env o (loadedRule s r) results ≠ [] ↔
      (∃ f ∈ headFormats r, f.isStatic = false) ∧
        ∀ a ∈ attributesOf (expressionsOf (headFormats (loadedRule s r))),
          env.toLower a = "dn" ∨ env.toLower a ∈ env.knownRDNs ∨
            if env.equalFold (fkey s) a = true then
              subKeys env (o.sub 1) results (headFormats (loadedRule s r)) ≠ []
            else (restrict env s.ldapSearch.attributes e).values env a ≠ [] := by
  obtain ⟨hentry, hsub⟩ := h.entry_eq
  have hdynamic : (∃ f ∈ headFormats (loadedRule s r), f.isStatic = false) ↔
      ∃ f ∈ headFormats r, f.isStatic = false := by
    simp [headFormats, loadedRule, RoleRule.mapFields]
  rw [sentNames_entry hentry, ne_eq, List.map_eq_nil_iff, ← ne_eq, values_ne_nil_iff, hdynamic, hsub]
  simp only [attributeValues_ne_nil_iff]

end Search

/-! ## 5. Rules without a name to send -/

section Mute

/-- A value comes from an attribute that is requested. -/
theorem requested_of_value (hfold : CaseFolds env) {requested : List String} {b : String}
    (h : (restrict env requested e).values env b ≠ []) :
    ∃ q ∈ requested, env.equalFold b q = true := by
  unfold Entry.values restrict at h
  cases hfind : (e.attributes.filter fun a => requested.any (env.equalFold · a.1)).find?
      fun a => env.equalFold b a.1 with
  | none => simp [hfind] at h
  | some x =>
    have hmem := List.mem_filter.mp (List.mem_of_find?_eq_some hfind)
    obtain ⟨q, hq, hfoldq⟩ := List.any_eq_true.mp hmem.2
    have hfound : env.equalFold b x.1 = true := by simpa using List.find?_some hfind
    exact ⟨q, hq, hfold.trans b x.1 q hfound (hfold.symm q x.1 hfoldq)⟩

theorem sentNames_mute (hfold : CaseFolds env) (hsearch : s.hasLDAPSearch = true)
    (hmute : Mute env s r) {results : Result} (h : Served env content s e results) :
    sentNames env o (loadedRule s r) results = [] := by
  by_contra hne
  obtain ⟨⟨f, hf, hdynamic⟩, hvalues⟩ := (sentNames_ne_nil_iff h).mp hne
  rw [Mute, if_pos hsearch] at hmute
  rcases hmute with hstatic | ⟨attr, hattr, hunfed⟩
  · rw [hstatic f hf] at hdynamic
    cases hdynamic
  · refine hunfed ((hvalues attr hattr).imp_right (Or.imp_right fun hvalue hkey => ?_))
    rw [if_pos hkey, subKeys_ne_nil_iff, h.entry_eq.2] at hvalue
    obtain ⟨hne, hexprs, se, hse, hsub⟩ := hvalue
    refine ⟨hne, hexprs, fun b hb => ?_⟩
    refine (attributeValues_ne_nil_iff.mp (hsub b hb)).imp_right (Or.imp_right fun hvalue => ?_)
    cases hempty : env.equalFold "" b with
    | true => simp [hempty] at hvalue
    | false =>
      simp only [hempty, Bool.false_eq_true, if_false] at hvalue
      rw [Served, if_neg hne] at h
      obtain ⟨base, _, rfl⟩ := h
      obtain ⟨se', _, rfl⟩ := List.mem_map.mp hse
      exact ⟨rfl, requested_of_value hfold hvalue⟩

theorem generatedNames_mute (hfold : CaseFolds env) (hs : Inferred item s) (hr : r ∈ item.roleRules)
    (hdynamic : r.isStatic = false) (hmute : Mute env s r) :
    generatedNames env o content s r = ∅ := by
  refine Set.eq_empty_iff_forall_notMem.mpr fun n hn => ?_
  obtain ⟨results, hresults, hn⟩ := (mem_generatedNames hs hr hdynamic).mp hn
  by_cases hsearch : s.hasLDAPSearch = true
  · obtain ⟨e, _, hserved⟩ := (mem_search_iff hs hsearch).mp hresults
    rw [sentNames_mute hfold hsearch hmute hserved] at hn
    cases hn
  · rw [Mute, if_neg hsearch] at hmute
    obtain ⟨m, hm, hfield⟩ := hmute
    rw [Step.search, if_pos (by simpa using hsearch)] at hresults
    cases List.mem_singleton.mp hresults
    have hparent : m.mapFields (subentryField (fkey s)) ∈ (loadedRule s r).parents :=
      List.mem_map_of_mem hm
    rw [sentNames_panic rfl hparent (by rw [mapFields_isStatic, hfield])] at hn
    cases hn

end Mute

/-! ## 6. Rules with a name to send -/

section Rich

/-- An entry with one value for each of the attributes. -/
def rich (v : String) (attributes : List String) : Entry := ⟨"", attributes.map fun a => (a, [v])⟩

theorem mem_rich_values {v base a : String} {attributes : List String} :
    base ∈ (rich v attributes).values env a ↔
      base = v ∧ ∃ x ∈ attributes, env.equalFold a x = true := by
  unfold Entry.values rich
  induction attributes with
  | nil => simp
  | cons x l ih =>
    simp only [List.map_cons, List.find?_cons]
    cases hx : env.equalFold a x with
    | true => simp [hx]
    | false => simpa [hx] using ih

theorem rich_values_ne_nil (hfold : CaseFolds env) {v a : String} {attributes : List String}
    (h : a ∈ attributes) : (rich v attributes).values env a ≠ [] :=
  List.ne_nil_of_mem (mem_rich_values.mpr ⟨rfl, a, h, hfold.refl a⟩)

/-- The attributes of the formats of a rule, as the rule is written. -/
theorem attributesOf_loadedRule {a : String} :
    a ∈ attributesOf (expressionsOf (headFormats (loadedRule s r))) ↔
      a ∈ attributesOf (expressionsOf (headFormats r)) := by
  have hheads : headFormats (loadedRule s r) =
      (headFormats r).map (Format.mapFields (subentryField (fkey s))) := rfl
  simp only [mem_attributesOf, expressionsOf, List.mem_dedup, List.mem_map, List.mem_flatMap, hheads]
  constructor
  · rintro ⟨_, ⟨x, ⟨_, ⟨f, hf, rfl⟩, hx⟩, rfl⟩, rfl⟩
    rw [mapFields_fields] at hx
    obtain ⟨y, hy, rfl⟩ := List.mem_map.mp hx
    exact ⟨_, ⟨y, ⟨f, hf, hy⟩, rfl⟩, (root_subentryField _ y).symm⟩
  · rintro ⟨_, ⟨y, ⟨f, hf, hy⟩, rfl⟩, rfl⟩
    refine ⟨_, ⟨subentryField (fkey s) y, ⟨_, ⟨f, hf, rfl⟩, ?_⟩, rfl⟩, root_subentryField _ y⟩
    rw [mapFields_fields]
    exact List.mem_map_of_mem hy

/-- What a rule of the step reads in entries is asked for. -/
theorem Inferred.covers (hs : Inferred item s) (hr : r ∈ item.roleRules) {a : String}
    (ha : a ∈ attributesOf (expressionsOf (headFormats r))) (hdn : env.toLower a ≠ "dn") :
    Covers env s.ldapSearch.attributes a := by
  refine covers_of_mem ((hs.attributes a).mpr (Step.mem_roots.mpr ⟨fun h => ?_, ?_⟩))
  · exact hdn (h ▸ toLower_dn env)
  · simp only [mem_attributesOf, expressionsOf, List.mem_dedup, List.mem_map, List.mem_flatMap] at ha
    obtain ⟨_, ⟨x, ⟨f, hf, hx⟩, rfl⟩, hroot⟩ := ha
    have hformat : f ∈ item.toStep.formats := List.mem_append_left _
      (List.mem_flatMap.mpr ⟨r, hr, List.mem_append_left _ hf⟩)
    exact ⟨x, List.mem_flatMap.mpr ⟨f, hformat, hx⟩, hroot⟩

/-- A rule that is not mute sends a name for an entry with the attributes of its formats,
as long as its sub-search finds what is read there. -/
theorem exists_name (hs : Inferred item s) (hr : r ∈ item.roleRules) (hdynamic : r.isStatic = false)
    (hsearch : s.hasLDAPSearch = true) (hmute : ¬ Mute env s r) {results : Result}
    (he : e ∈ content item.base item.scope item.filter) (h : Served env content s e results)
    (hentry : ∀ a ∈ attributesOf (expressionsOf (headFormats r)), env.toLower a ≠ "dn" →
    env.toLower a ∉ env.knownRDNs → e.values env a ≠ [])
    (hsub : fkey s ≠ "" → ∃ se ∈ results.subsearchEntries, ∀ b, env.equalFold "" b = false → (∃ q ∈
    subAttributes s (fkey s), env.equalFold b q = true) → b ∈ attributesOf (subExpressions (fkey s)
    (expressionsOf (headFormats (loadedRule s r)))) → se.values env b ≠ []) :
    ∃ n, n ∈ generatedNames env o content s r := by
  rw [Mute, if_pos hsearch] at hmute
  simp only [not_or, not_forall, not_exists, not_and, not_not, Bool.not_eq_true, exists_prop] at hmute
  obtain ⟨hfield, hfed⟩ := hmute
  have hne : sentNames env o (loadedRule s r) results ≠ [] := by
    refine (sentNames_ne_nil_iff h).mpr ⟨hfield, fun a ha => ?_⟩
    by_cases hdn : env.toLower a = "dn"
    · exact .inl hdn
    by_cases hrdn : env.toLower a ∈ env.knownRDNs
    · exact .inr (.inl hrdn)
    refine .inr (.inr ?_)
    have ha' := attributesOf_loadedRule.mp ha
    split
    case isTrue hkey =>
      obtain ⟨hkeyed, hexprs, hread⟩ := ((hfed a ha).resolve_left hdn).resolve_left hrdn hkey
      obtain ⟨se, hse, hvalues⟩ := hsub hkeyed
      rw [subKeys_ne_nil_iff, h.entry_eq.2]
      refine ⟨hkeyed, hexprs, se, hse, fun b hb => attributeValues_ne_nil_iff.mpr ?_⟩
      refine (hread b hb).imp_right (Or.imp_right fun ⟨hempty, hq⟩ => ?_)
      rw [hempty]
      exact hvalues b hempty hq hb
    case isFalse =>
      rw [restrict_values (hs.covers hr ha' hdn)]
      exact hentry a ha' hdn hrdn
  obtain ⟨n, hn⟩ := List.exists_mem_of_ne_nil _ hne
  exact ⟨n, (mem_generatedNames hs hr hdynamic).mpr
    ⟨results, (mem_search_iff hs hsearch).mpr ⟨e, he, h⟩, hn⟩⟩

/-- Without a search, the name is the text of the format. -/
theorem raw_name (hs : Inferred item s) (hr : r ∈ item.roleRules) (hdynamic : r.isStatic = false)
    (hsearch : ¬ s.hasLDAPSearch = true) (hmute : ¬ Mute env s r) :
    (loadedRule s r).name.string ∈ generatedNames env o content s r := by
  rw [Mute, if_neg hsearch] at hmute
  have hstatic : ∀ m ∈ (loadedRule s r).parents, m.isStatic = true := by
    intro m hm
    obtain ⟨m', hm', rfl⟩ := List.mem_map.mp hm
    rw [mapFields_isStatic]
    by_contra hfield
    exact hmute ⟨m', hm', by simpa using hfield⟩
  refine (mem_generatedNames hs hr hdynamic).mpr ⟨{}, ?_, ?_⟩
  · rw [Step.search, if_pos (by simpa using hsearch)]
    exact List.mem_singleton_self _
  · rw [sentNames_raw rfl hstatic]
    exact List.mem_singleton_self _

/-- **A rule that is not mute has a name to send** in some directory. -/
theorem exists_content (hfold : CaseFolds env) (hs : Inferred item s) (hr : r ∈ item.roleRules)
    (hdynamic : r.isStatic = false) (hmute : ¬ Mute env s r) :
    ∃ content n, n ∈ generatedNames env o content s r := by
  by_cases hsearch : s.hasLDAPSearch = true
  · let read := attributesOf (subExpressions (fkey s) (expressionsOf (headFormats (loadedRule s r))))
    let e := rich "v" (fkey s :: attributesOf (expressionsOf (headFormats r)) ++ read)
    refine ⟨fun _ _ _ => [e], ?_⟩
    have hentry : ∀ a ∈ attributesOf (expressionsOf (headFormats r)), env.toLower a ≠ "dn" →
        env.toLower a ∉ env.knownRDNs → e.values env a ≠ [] := fun a ha _ _ =>
      rich_values_ne_nil hfold (List.mem_append_left _ (List.mem_cons_of_mem _ ha))
    by_cases hkey : fkey s = ""
    · exact exists_name hs hr hdynamic hsearch hmute (List.mem_singleton_self e)
        (served_plain hkey e) hentry fun hne => absurd hkey hne
    · have hbase : "v" ∈ e.values env (fkey s) :=
        mem_rich_values.mpr ⟨rfl, _, List.mem_append_left _ List.mem_cons_self, hfold.refl _⟩
      refine exists_name hs hr hdynamic hsearch hmute (List.mem_singleton_self e)
        (served_sub hkey hbase) hentry
        fun _ => ⟨_, List.mem_singleton_self _, fun b _ ⟨q, hq, hfoldq⟩ hb => ?_⟩
      have hcovers : Covers env (subAttributes s (fkey s)) b := fun x hx =>
        List.any_eq_true.mpr ⟨q, hq, hfold.trans q b x (hfold.symm b q hfoldq) hx⟩
      rw [restrict_values hcovers]
      exact rich_values_ne_nil hfold (List.mem_append_right _ hb)
  · exact ⟨fun _ _ _ => [], _, raw_name hs hr hdynamic hsearch hmute⟩

end Rich

/-! ## 7. Two steps -/

section Pair

/-- The same search, whatever the rules. -/
structure SameTarget (item item' : Item) : Prop where
  base : item.base = item'.base
  scope : item.scope = item'.scope
  filter : item.filter = item'.filter

theorem SameTarget.symm (h : SameTarget item item') : SameTarget item' item :=
  ⟨h.base.symm, h.scope.symm, h.filter.symm⟩

/-- The sub-searches ask for all that the rule reads in sub-entries. -/
def SubCovered (env : Env) (s : Step) (r : RoleRule) : Prop :=
  fkey s ≠ "" → ∀ b ∈ attributesOf (subExpressions (fkey s)
    (expressionsOf (headFormats (loadedRule s r)))),
      Reads env "" b → Covers env (subAttributes s (fkey s)) b

/-- A result stands for what the directory holds, asked for or not. -/
theorem values_served (hs : Inferred item s) (hr : r ∈ item.roleRules) (hsub : SubCovered env s r)
    (full : Result) (hkey : full.subsearchAttribute = fkey s) (e : Entry) (o : Order) :
    ({ entry := some (restrict env s.ldapSearch.attributes e)
       subsearchAttribute := full.subsearchAttribute
       subsearchEntries := full.subsearchEntries.map (restrict env (subAttributes s (fkey s))) } :
        Result).generateValues env o (restrict env s.ldapSearch.attributes e)
          (headFormats (loadedRule s r)) =
      full.generateValues env o e (headFormats (loadedRule s r)) := by
  refine restrict_formats (fun a ha hread => ?_) (fun hne b hb hread => ?_) e _
  · have ha' := (listVariables_perm listExpressions_perm).mem_iff.mp ha
    exact hs.covers hr (attributesOf_loadedRule.mp ha') hread.1
  · rw [hkey] at hne hb
    exact hsub hne b ((listVariables_perm (listExpressions_perm.filterMap _)).mem_iff.mp hb) hread

/-- The same entries and sub-entries give the same names in both steps. -/
theorem names_subset (hs : Inferred item s) (hs' : Inferred item' s') (hr : r ∈ item.roleRules)
    (hr' : r ∈ item'.roleRules) (hdynamic : r.isStatic = false) (htarget : SameTarget item item')
    (hsearch : s.hasLDAPSearch = true) (hsearch' : s'.hasLDAPSearch = true)
    (hkey : fkey s = fkey s') (hsub : SubCovered env s r) (hsub' : SubCovered env s' r) :
    generatedNames env o content s r ⊆ generatedNames env o content s' r := by
  intro n hn
  obtain ⟨results, hresults, hn⟩ := (mem_generatedNames hs hr hdynamic).mp hn
  obtain ⟨e, he, hserved⟩ := (mem_search_iff hs hsearch).mp hresults
  rw [htarget.base, htarget.scope, htarget.filter] at he
  have hrule : loadedRule s r = loadedRule s' r := by rw [loadedRule, hkey]; rfl
  suffices h : ∃ results', Served env content s' e results' ∧
      sentNames env o (loadedRule s' r) results' = sentNames env o (loadedRule s r) results by
    obtain ⟨results', hserved', hnames⟩ := h
    exact (mem_generatedNames hs' hr' hdynamic).mpr
      ⟨results', (mem_search_iff hs' hsearch').mpr ⟨e, he, hserved'⟩, hnames ▸ hn⟩
  have hsame : ∀ full : Result, full.subsearchAttribute = fkey s → ∀ results results' : Result,
      results = { entry := some (restrict env s.ldapSearch.attributes e)
                  subsearchAttribute := full.subsearchAttribute
                  subsearchEntries := full.subsearchEntries.map
                    (restrict env (subAttributes s (fkey s))) } →
      results' = { entry := some (restrict env s'.ldapSearch.attributes e)
                   subsearchAttribute := full.subsearchAttribute
                   subsearchEntries := full.subsearchEntries.map
                    (restrict env (subAttributes s' (fkey s'))) } →
        sentNames env o (loadedRule s' r) results' = sentNames env o (loadedRule s r) results := by
    rintro full hfull _ _ rfl rfl
    have hvalues := values_served hs hr hsub full hfull e (o.sub 1)
    have hvalues' := values_served hs' hr' hsub' full (hfull.trans hkey) e (o.sub 1)
    rw [← hrule] at hvalues' ⊢
    rw [sentNames_entry rfl, sentNames_entry rfl, hvalues, hvalues']
  by_cases hnone : fkey s = ""
  · rw [Served, if_pos hnone] at hserved
    exact ⟨_, served_plain (hkey ▸ hnone) e, hsame {} hnone.symm _ _ hserved rfl⟩
  · rw [Served, if_neg hnone] at hserved
    obtain ⟨base, hbase, hresult⟩ := hserved
    exact ⟨_, served_sub (hkey ▸ hnone) (hkey ▸ hbase),
      hsame { subsearchAttribute := fkey s, subsearchEntries := content base .sub "(objectClass=*)" }
        rfl _ _ hresult (by rw [hkey])⟩

/-- **A sub-search hides names**: an entry without sub-entries has a name in a step without
sub-search, and none in a step with one. -/
theorem exists_hidden (hfold : CaseFolds env) (hs : Inferred item s) (hs' : Inferred item' s')
    (hr : r ∈ item.roleRules) (hr' : r ∈ item'.roleRules) (hdynamic : r.isStatic = false)
    (htarget : SameTarget item item') (hsearch : s.hasLDAPSearch = true)
    (hsearch' : s'.hasLDAPSearch = true) (hmute : ¬ Mute env s r) (hnone : fkey s = "")
    (hkey : fkey s' ≠ "") :
    ∃ content n, n ∈ generatedNames env o content s r ∧ n ∉ generatedNames env o content s' r := by
  -- the entry has the attributes of the formats only, and is its own sub-entry nowhere
  let read := (attributesOf (expressionsOf (headFormats r))).filter fun a =>
    env.toLower a ≠ "dn" ∧ env.toLower a ∉ env.knownRDNs
  let e := rich (item.base ++ "v") read
  let content : Content := fun base _ _ => if base = item.base then [e] else []
  have hin : content item.base item.scope item.filter = [e] := if_pos rfl
  have hread : ∀ a, a ∈ read ↔ a ∈ attributesOf (expressionsOf (headFormats r)) ∧
      env.toLower a ≠ "dn" ∧ env.toLower a ∉ env.knownRDNs := fun a => by simp [read]
  obtain ⟨n, hn⟩ : ∃ n, n ∈ generatedNames env o content s r := by
    refine exists_name hs hr hdynamic hsearch hmute (hin ▸ List.mem_singleton_self e)
      (served_plain hnone e) (fun a ha hdn hrdn => ?_) fun hne => absurd hnone hne
    exact rich_values_ne_nil hfold ((hread a).mpr ⟨ha, hdn, hrdn⟩)
  refine ⟨content, n, hn, fun hn' => ?_⟩
  obtain ⟨results, hresults, hn'⟩ := (mem_generatedNames hs' hr' hdynamic).mp hn'
  obtain ⟨e', he', hserved⟩ := (mem_search_iff hs' hsearch').mp hresults
  rw [← htarget.base, ← htarget.scope, ← htarget.filter, hin] at he'
  cases List.mem_singleton.mp he'
  obtain ⟨⟨_, _, _⟩, hvalues⟩ := (sentNames_ne_nil_iff hserved).mp (List.ne_nil_of_mem hn')
  rw [Served, if_neg hkey] at hserved
  obtain ⟨base, hbase, rfl⟩ := hserved
  obtain ⟨rfl, a, ha, hfolda⟩ := mem_rich_values.mp hbase
  obtain ⟨ha, hdn, hrdn⟩ := (hread a).mp ha
  have hkeys := ((hvalues a (attributesOf_loadedRule.mpr ha)).resolve_left hdn).resolve_left hrdn
  rw [if_pos hfolda, subKeys_ne_nil_iff] at hkeys
  obtain ⟨_, _, se, hse, _⟩ := hkeys
  have hother : item.base ++ "v" ≠ item.base := fun h => by
    have hlen := congrArg String.length h
    simp at hlen
  simp [content, hother] at hse

end Pair

/-! ## 8. A rule added to a step -/

section Added

/-- Sub-entries are chosen by their keys, not by what is read of a DN: the sub-search starts
from an attribute of the entry, or the RDNs that are known while loading stay known. -/
def KeysApart (env : Env) (s : Step) : Prop :=
  fkey s ≠ "" → (env.toLower (fkey s) ≠ "dn" ∧ env.toLower (fkey s) ∉ env.knownRDNs) ∨
    ∀ k ∈ defaultKnownRDNs, k ∈ env.knownRDNs

/-- A rule comes out alike in two steps: it has no field, or no name to send in both, or
the two steps search and sub-search alike. -/
def Alike (env : Env) (s s' : Step) (r : RoleRule) : Prop :=
  r.isStatic = true ∨ (Mute env s r ↔ Mute env s' r) ∧
    (¬ Mute env s r → s.hasLDAPSearch = s'.hasLDAPSearch ∧ fkey s = fkey s')

theorem Inferred.dot_not_mem_fkey (hs : Inferred item s) (h : fkey s ≠ "") :
    '.' ∉ (fkey s).toList := by
  obtain ⟨x, _, rest, hsub⟩ := hs.exists_trigger h
  exact (subField_root hsub).1 ▸ dot_not_mem_root _

theorem default_letters {k : String} (h : k ∈ defaultKnownRDNs) : ∀ c ∈ k.toList, 'a' ≤ c ∧ c ≤ 'z' := by
  revert k
  simp [defaultKnownRDNs]

theorem default_root : ∀ k ∈ defaultKnownRDNs, root k = k := by decide +kernel

/-- A rule that triggers no sub-search reads nothing in sub-entries but RDNs. -/
theorem known_of_no_trigger (hs : Inferred item s)
    (htrigger : ∀ f ∈ r.formats, ∀ x ∈ f.fields, subField x = none) (hkey : fkey s ≠ "") {b : String}
    (hb : b ∈ attributesOf (subExpressions (fkey s) (expressionsOf (headFormats (loadedRule s r))))) :
    b = "dn" ∨ b ∈ defaultKnownRDNs := by
  obtain ⟨rest, hrest, rfl⟩ := mem_attributesOf.mp hb
  have hexpr := mem_subExpressions_iff.mp hrest
  have hheads : headFormats (loadedRule s r) =
      (headFormats r).map (Format.mapFields (subentryField (fkey s))) := rfl
  simp only [expressionsOf, List.mem_dedup, List.mem_map, List.mem_flatMap, hheads] at hexpr
  obtain ⟨x, ⟨_, ⟨f, hf, rfl⟩, hx⟩, hname⟩ := hexpr
  rw [mapFields_fields] at hx
  obtain ⟨y, hy, rfl⟩ := List.mem_map.mp hx
  rcases subentryField_cases (fkey s) y with hsame | ⟨_, _, hdn⟩
  · have hnone := htrigger f (List.mem_append_left _ hf) y hy
    obtain ⟨_, _, _, hsub⟩ := hs.exists_trigger hkey
    rw [hsame] at hname
    rw [subField, hname, cut_append_dot (hs.dot_not_mem_fkey hkey)] at hnone
    have hknown : rest ∈ defaultKnownRDNs := by simpa [(subField_root hsub).2] using hnone
    rw [default_root rest hknown]
    exact .inr hknown
  · rw [hdn, String.append_right_inj] at hname
    rw [← hname]
    exact .inl (by decide +kernel)

theorem subCovered_of_not_mute (hfold : CaseFolds env) (hs : Inferred item s)
    (htrigger : ∀ f ∈ r.formats, ∀ x ∈ f.fields, subField x = none) (hkeys : KeysApart env s)
    (hsearch : s.hasLDAPSearch = true) (hmute : ¬ Mute env s r) : SubCovered env s r := by
  intro hkey b hb hread
  rcases hkeys hkey with ⟨hdn, hrdn⟩ | hdefault
  · -- the attribute itself is one of those that have to be fed
    rw [Mute, if_pos hsearch] at hmute
    simp only [not_or, not_exists, not_and, not_not] at hmute
    have hattr : fkey s ∈ attributesOf (expressionsOf (headFormats (loadedRule s r))) := by
      obtain ⟨rest, hrest, _⟩ := mem_attributesOf.mp hb
      exact mem_attributesOf.mpr ⟨_, mem_subExpressions_iff.mp hrest,
        root_append_dot (hs.dot_not_mem_fkey hkey) rest⟩
    have hfed := ((hmute.2 _ hattr).resolve_left hdn).resolve_left hrdn (hfold.refl _)
    obtain ⟨_, q, hq, hfoldq⟩ := ((hfed.2.2 b hb).resolve_left hread.1).resolve_left hread.2.1
    exact fun x hx =>
      List.any_eq_true.mpr ⟨q, hq, hfold.trans q b x (hfold.symm b q hfoldq) hx⟩
  · exfalso
    rcases known_of_no_trigger hs htrigger hkey hb with rfl | hknown
    · exact hread.1 (toLower_dn env)
    · refine hread.2.1 ?_
      rw [env.toLower_letters b (default_letters hknown)]
      exact hdefault b hknown

theorem Inferred.search_of_fkey (hs : Inferred item s) (h : fkey s ≠ "") : s.hasLDAPSearch = true := by
  unfold Step.hasLDAPSearch
  exact decide_eq_true (List.length_pos_of_mem (hs.fkey_mem_attributes h))

/-- More fields, more searches. -/
theorem search_mono (hs : Inferred item s) (hs' : Inferred item' s')
    (hfields : ∀ x ∈ item.toStep.fields, x ∈ item'.toStep.fields) :
    (s.hasLDAPSearch = true → s'.hasLDAPSearch = true) ∧ (fkey s ≠ "" → fkey s' = fkey s) := by
  refine ⟨fun h => hs'.search.mpr fun hnil => hs.search.mp h ?_, fun h => ?_⟩
  · exact Step.roots_eq_nil.mpr fun f hf => Step.roots_eq_nil.mp hnil f (hfields f hf)
  · obtain ⟨x, hx, rest, hsub⟩ := hs.exists_trigger h
    exact hs'.fkey_eq _ (.inl (mem_subFirsts.mpr ⟨x, hfields x hx, rest, hsub⟩))

/-- **When a rule does not depend on another.** In a step without joins, the names that a
rule generates are the same with and without another rule, whatever the directory holds,
exactly when the other rule turns on no search and no sub-search that was not there; or
the rule has no field; or no name to send in both cases. -/
theorem rule_independent_iff (hfold : CaseFolds env) {before after : List RoleRule} {r' : RoleRule}
    (hjoins : item.joins = ∅) (hr : r ∈ before ++ after)
    (htrigger : ∀ f ∈ r.formats, ∀ x ∈ f.fields, subField x = none) {o o' : Order}
    (h : { item with roleRules := before ++ after }.toStep.load o = .ok s)
    (h' : { item with roleRules := before ++ r' :: after }.toStep.load o' = .ok s')
    (hkeys : KeysApart env s) :
    (∀ content o, generatedNames env o content s r = generatedNames env o content s' r) ↔
      Alike env s s' r := by
  have hs : Inferred { item with roleRules := before ++ after } s := ⟨loadSpec_of_load h, hjoins⟩
  have hs' : Inferred { item with roleRules := before ++ r' :: after } s' := ⟨loadSpec_of_load h', hjoins⟩
  have htarget : SameTarget { item with roleRules := before ++ after }
      { item with roleRules := before ++ r' :: after } := ⟨rfl, rfl, rfl⟩
  have hr' : r ∈ before ++ r' :: after := by
    rcases List.mem_append.mp hr with hr | hr
    · exact List.mem_append_left _ hr
    · exact List.mem_append_right _ (List.mem_cons_of_mem _ hr)
  obtain ⟨hmono, hkeymono⟩ := search_mono hs hs' fun x hx => by
    simp only [Step.fields, Step.formats, Item.toStep, List.flatMap_append, List.flatMap_cons,
      List.mem_append] at hx ⊢
    tauto
  by_cases hstatic : r.isStatic = true
  · refine iff_of_true (fun content o => ?_) (.inl hstatic)
    rw [generatedNames_static hs hr hstatic, generatedNames_static hs' hr' hstatic]
  have hdynamic : r.isStatic = false := by simpa using hstatic
  constructor
  · intro hsame
    have hiff : Mute env s r ↔ Mute env s' r := by
      refine ⟨fun hmute => by_contra fun hmute' => ?_, fun hmute' => by_contra fun hmute => ?_⟩
      · obtain ⟨content, n, hn⟩ := exists_content (o := o) hfold hs' hr' hdynamic hmute'
        rw [← hsame, generatedNames_mute hfold hs hr hdynamic hmute] at hn
        exact hn
      · obtain ⟨content, n, hn⟩ := exists_content (o := o) hfold hs hr hdynamic hmute
        rw [hsame, generatedNames_mute hfold hs' hr' hdynamic hmute'] at hn
        exact hn
    refine .inr ⟨hiff, fun hmute => ?_⟩
    have hmute' : ¬ Mute env s' r := hiff.not.mp hmute
    have hsearch : s.hasLDAPSearch = s'.hasLDAPSearch := by
      refine Bool.eq_iff_iff.mpr ⟨hmono, fun hon' => by_contra fun hoff => ?_⟩
      have hn : _ ∈ generatedNames env o (fun _ _ _ => []) s r := raw_name hs hr hdynamic hoff hmute
      rw [hsame] at hn
      obtain ⟨_, hresults, _⟩ := (mem_generatedNames hs' hr' hdynamic).mp hn
      obtain ⟨_, he, _⟩ := (mem_search_iff hs' hon').mp hresults
      cases he
    refine ⟨hsearch, by_contra fun hkey => ?_⟩
    have hnone : fkey s = "" := by_contra fun hne => hkey (hkeymono hne).symm
    have hsome : fkey s' ≠ "" := fun h => hkey (hnone.trans h.symm)
    have hon' := hs'.search_of_fkey hsome
    obtain ⟨content, n, hn, hn'⟩ := exists_hidden (o := o) hfold hs hs' hr hr' hdynamic htarget
      (hsearch.trans hon') hon' hmute hnone hsome
    exact hn' (hsame content o ▸ hn)
  · intro halike content o
    obtain ⟨hiff, hsearches⟩ := halike.resolve_left hstatic
    by_cases hmute : Mute env s r
    · rw [generatedNames_mute hfold hs hr hdynamic hmute,
        generatedNames_mute hfold hs' hr' hdynamic (hiff.mp hmute)]
    have hmute' : ¬ Mute env s' r := hiff.not.mp hmute
    obtain ⟨hsearch, hkey⟩ := hsearches hmute
    by_cases hon : s.hasLDAPSearch = true
    · have hon' := hsearch ▸ hon
      have hsub := subCovered_of_not_mute hfold hs htrigger hkeys hon hmute
      have hsub' := subCovered_of_not_mute hfold hs' htrigger (by rwa [KeysApart, ← hkey]) hon' hmute'
      exact Set.Subset.antisymm
        (names_subset hs hs' hr hr' hdynamic htarget hon hon' hkey hsub hsub')
        (names_subset hs' hs hr' hr hdynamic htarget.symm hon' hon hkey.symm hsub' hsub)
    · ext n
      have hrule : loadedRule s r = loadedRule s' r := by rw [loadedRule, hkey]; rfl
      rw [mem_generatedNames hs hr hdynamic, mem_generatedNames hs' hr' hdynamic, hrule, Step.search,
        Step.search, if_pos (by simpa using hon), if_pos (by simpa [← hsearch] using hon)]

end Added

/-! ## 9. A rule on mails, next to rules on names and on members -/

section Sample
open Sample

def attributeRule (attr : String) : RoleRule :=
  roleRule ⟨"\x7b" ++ attr ++ "\x7d", [.field { fieldName := attr }]⟩ []

def mailRule : RoleRule := attributeRule "mail"

theorem sample_folds : CaseFolds Ldap.Sample.env where
  refl := beq_self_eq_true
  empty := fun _ h => (eq_of_beq h).symm
  symm := fun a b h => by rw [eq_of_beq (a := a) (b := b) h]; exact beq_self_eq_true b
  trans := fun a b c h h' => by rw [eq_of_beq (a := a) (b := b) h]; exact h'

theorem mailRule_not_mute (hsearch : s.hasLDAPSearch = true) (hkey : fkey s = "") :
    ¬ Mute Ldap.Sample.env s mailRule := by
  rw [Mute, if_pos hsearch]
  intro hmute
  rcases hmute with hstatic | ⟨attr, hattr, hunfed⟩
  · exact absurd (hstatic mailRule.name List.mem_cons_self) (by decide)
  · refine hunfed (.inr (.inr fun hfold => ?_))
    have hmail : attr ∈ attributesOf (expressionsOf (headFormats mailRule)) :=
      attributesOf_loadedRule.mp hattr
    have hone : attributesOf (expressionsOf (headFormats mailRule)) = ["mail"] := by decide +kernel
    rw [hone, List.mem_singleton] at hmail
    rw [hkey, hmail] at hfold
    exact absurd hfold (by decide)

def mailItem : Item where
  roleRules := [mailRule]

def nameItem : Item where
  roleRules := [attributeRule "sn", mailRule]

def memberItem : Item where
  roleRules := [mailRule, attributeRule "member.mail"]

/-- A rule on another attribute of the entries changes nothing. -/
theorem mail_next_to_name : ∃ s s', mailItem.toStep.load Order.sorted = .ok s ∧
    nameItem.toStep.load Order.sorted = .ok s' ∧
      ∀ content o, generatedNames Ldap.Sample.env o content s mailRule =
        generatedNames Ldap.Sample.env o content s' mailRule := by
  obtain ⟨s, h⟩ : ∃ s, mailItem.toStep.load Order.sorted = .ok s := ⟨_, rfl⟩
  obtain ⟨s', h'⟩ : ∃ s', nameItem.toStep.load Order.sorted = .ok s' := ⟨_, rfl⟩
  have hs : s.hasLDAPSearch = true ∧ fkey s = "" := by cases h; exact ⟨rfl, rfl⟩
  have hs' : s'.hasLDAPSearch = true ∧ fkey s' = "" := by cases h'; exact ⟨rfl, rfl⟩
  refine ⟨s, s', h, h', ?_⟩
  refine (@rule_independent_iff Ldap.Sample.env {} s s' mailRule sample_folds [] [mailRule]
    (attributeRule "sn") rfl (List.mem_singleton_self _) (by decide +kernel) _ _ h h'
      fun hkey => absurd hs.2 hkey).mpr (.inr ⟨?_, fun _ => ?_⟩)
  · exact iff_of_false (mailRule_not_mute hs.1 hs.2) (mailRule_not_mute hs'.1 hs'.2)
  · exact ⟨hs.1.trans hs'.1.symm, hs.2.trans hs'.2.symm⟩

/-- A person, and no group. -/
def person : Entry := ⟨"cn=bob", [("mail", ["bob@acme"])]⟩

def people : Content := fun _ _ _ => [person]

/-- A rule on members makes the role of a person disappear. -/
theorem mail_next_to_members : ∃ s s', mailItem.toStep.load Order.sorted = .ok s ∧
    memberItem.toStep.load Order.sorted = .ok s' ∧
      "bob@acme" ∈ generatedNames Ldap.Sample.env Order.sorted people s mailRule ∧
      generatedNames Ldap.Sample.env Order.sorted people s' mailRule = ∅ := by
  obtain ⟨s, h⟩ : ∃ s, mailItem.toStep.load Order.sorted = .ok s := ⟨_, rfl⟩
  obtain ⟨s', h'⟩ : ∃ s', memberItem.toStep.load Order.sorted = .ok s' := ⟨_, rfl⟩
  have hfound : .ok { entry := some person } ∈
      s.search Ldap.Sample.env Order.sorted (serve Ldap.Sample.env people) := by
    cases h; decide +kernel
  have hnamed : "bob@acme" ∈ sentNames Ldap.Sample.env Order.sorted (loadedRule s mailRule)
      { entry := some person } := by cases h; decide +kernel
  have hnone : s'.search Ldap.Sample.env Order.sorted (serve Ldap.Sample.env people) = [] := by
    cases h'; decide +kernel
  refine ⟨s, s', h, h', ?_, Set.eq_empty_iff_forall_notMem.mpr fun n hn => ?_⟩
  · exact (mem_generatedNames ⟨loadSpec_of_load h, rfl⟩ (List.mem_singleton_self _) rfl).mpr
      ⟨_, hfound, hnamed⟩
  · obtain ⟨results, hresults, _⟩ :=
      (mem_generatedNames ⟨loadSpec_of_load h', rfl⟩ List.mem_cons_self rfl).mp hn
    rw [hnone] at hresults
    cases hresults

end Sample

end Ldap2pg.Wanted.Independent
