import Ldap2pg.Wanted.FailClosed

/-! # From decoded rules to the rules that `Run` gets

`Config.LoadYaml` infers the attributes that each step asks for, `Config.Load`
then splits static rules from dynamic ones. Whether a step searches the
directory is read off the attributes it asks for; whether a rule needs an entry
is read off its fields. -/
namespace Ldap2pg.Wanted
open Lib Pyfmt Ldap Privileges Roles

/-- `ldap.KnownRDNs` while the configuration is loaded. The list of the
configuration replaces it later, in `ldap.Initialize`. -/
def defaultKnownRDNs : List String := ["cn", "l", "st", "o", "ou", "c", "street", "dc", "uid"]

/-- A step as `DecodeYaml` leaves it: nothing in the file sets attributes. -/
structure Item where
  description : String := ""
  base : String := ""
  scope : Scope := .sub
  filter : String := ""
  /-- filter and scope of the configured joins -/
  joins : Dict (String × Scope) := ∅
  roleRules : List RoleRule := []
  grantRules : List GrantRule := []

def Item.toStep (i : Item) : Step where
  description := i.description
  ldapSearch :=
    { base := i.base
      scope := i.scope
      filter := i.filter
      subsearches := i.joins.map fun _ join => ⟨join.1, join.2, []⟩ }
  roleRules := i.roleRules
  grantRules := i.grantRules

/-- The formats of the rules of a step. -/
def Step.formats (s : Step) : List Format :=
  s.roleRules.flatMap RoleRule.formats ++ s.grantRules.flatMap GrantRule.formats

/-- `Step.IterFields`. -/
def Step.fields (s : Step) : List Field := s.formats.flatMap Format.fields

/-- The set of attributes of an entry that the fields start with. -/
def Step.roots (s : Step) : List String :=
  ((s.fields.map fun f => root f.fieldName).filter (· ≠ "dn")).dedup

/-- The attribute and the rest of a field `{member.sAMAccountName}`, unless the
rest is an RDN to read in the value. -/
def subField (f : Field) : Option (String × String) :=
  match cut '.' f.fieldName with
  | (attr, field, found) =>
    if attr = "dn" ∨ found = false ∨ field ∈ defaultKnownRDNs then none
    else some (attr, field)

/-- `subsearchAttributes[attribute]`. -/
def Step.subFields (s : Step) (attr : String) : List String :=
  (((s.fields.filterMap subField).filter (·.1 = attr)).map Prod.snd).dedup

def Step.inferAttributes (o : Order) (s : Step) : Step :=
  if s.roots = [] then s
  else
    let subsearch attr :=
      { s.ldapSearch.subsearches[attr]?.getD ⟨"(objectClass=*)", .sub, []⟩ with
        attributes := (o.sub 1).range (s.subFields attr) }
    { s with ldapSearch := { s.ldapSearch with
        attributes := (o.sub 0).range s.roots
        subsearches := Dict.fill id subsearch s.ldapSearch.subsearches
          ((s.fields.filterMap subField).map Prod.fst) } }

def RoleRule.mapFields (g : Field → Field) (r : RoleRule) : RoleRule :=
  { r with
    name := r.name.mapFields g
    comment := r.comment.mapFields g
    parents := r.parents.map (Format.mapFields g)
    beforeCreate := r.beforeCreate.mapFields g
    afterCreate := r.afterCreate.mapFields g }

def mapGrantFields (g : Field → Field) (r : GrantRule) : GrantRule where
  owner := r.owner.mapFields g
  privilege := r.privilege.mapFields g
  database := r.database.mapFields g
  schema := r.schema.mapFields g
  role := r.role.mapFields g

/-- `{member}` becomes `{member.dn}` when there is a sub-search on `member`. -/
def subentryField (subsearchAttr : String) (f : Field) : Field :=
  match cut '.' f.fieldName with
  | (attr, _, found) =>
    if attr = subsearchAttr ∧ found = false then { f with fieldName := attr ++ ".dn" }
    else f

def Step.replaceAttributeAsSubentryField (o : Order) (s : Step) : Step :=
  let g := subentryField (s.ldapSearch.subsearchAttribute o)
  { s with roleRules := s.roleRules.map (RoleRule.mapFields g)
           grantRules := s.grantRules.map (mapGrantFields g) }

/-- The body of the loop of `LoadYaml`. -/
def Step.load (o : Order) (s : Step) : Except String Step :=
  let s := s.inferAttributes (o.sub 0)
  if 1 < s.ldapSearch.subsearches.size then .error "multiple sub-search unsupported"
  else .ok (s.replaceAttributeAsSubentryField (o.sub 1))

/-- `Config.LoadYaml`, on decoded rules. -/
def loadYaml (o : Order) (items : List Item) : Except String Rules :=
  items.zipIdx.mapM fun ii => ii.1.toStep.load (o.sub ii.2)

/-- `Config.Load`, on decoded rules. -/
def load (o : Order) (items : List Item) : Except String Rules := do
  let rules ← loadYaml o items
  return rules.splitStaticRules

/-! ## Fields and searches -/

section Fields
variable {s : Step}

theorem RoleRule.isStatic_iff {r : RoleRule} :
    r.isStatic = true ↔ r.formats.flatMap Format.fields = [] := by
  simp [RoleRule.isStatic, List.flatMap_eq_nil_iff, Pyfmt.isStatic_iff]

theorem grantRule_isStatic_iff {r : GrantRule} :
    r.isStatic = true ↔ r.formats.flatMap Format.fields = [] := by
  simp [GrantRule.isStatic, List.flatMap_eq_nil_iff, Pyfmt.isStatic_iff]

theorem Step.fields_eq_nil : s.fields = [] ↔
    (∀ r ∈ s.roleRules, r.isStatic = true) ∧ ∀ r ∈ s.grantRules, r.isStatic = true := by
  simp [Step.fields, Step.formats, List.flatMap_append, List.flatMap_assoc, RoleRule.isStatic_iff,
    grantRule_isStatic_iff]

/-- A step is covered when it searches, or has no field. -/
theorem Step.covered_iff : s.Covered ↔ (s.fields ≠ [] → s.hasLDAPSearch = true) := by
  unfold Step.Covered
  rw [ne_eq, Step.fields_eq_nil, not_and_or]
  simp only [not_forall, Bool.not_eq_true, exists_prop]

theorem Step.mem_roots {a : String} : a ∈ s.roots ↔ a ≠ "dn" ∧ ∃ f ∈ s.fields, root f.fieldName = a := by
  simp only [Step.roots, List.mem_dedup, List.mem_filter, List.mem_map, decide_eq_true_eq]
  exact and_comm

theorem Step.roots_eq_nil : s.roots = [] ↔ ∀ f ∈ s.fields, root f.fieldName = "dn" := by
  rw [List.eq_nil_iff_forall_not_mem]
  simp only [Step.mem_roots]
  constructor
  · intro h f hf
    by_contra hne
    exact h _ ⟨hne, f, hf, rfl⟩
  · intro h a ⟨hne, f, hf, ha⟩
    exact hne (ha ▸ h f hf)

theorem RoleRule.mapFields_formats (g : Field → Field) (r : RoleRule) :
    (r.mapFields g).formats = r.formats.map (Format.mapFields g) := by
  simp [RoleRule.formats, RoleRule.mapFields]

theorem mapGrantFields_formats (g : Field → Field) (r : GrantRule) :
    (mapGrantFields g r).formats = r.formats.map (Format.mapFields g) := rfl

/-- Rewriting fields rewrites them in place. -/
theorem Step.replace_fields (o : Order) (s : Step) :
    (s.replaceAttributeAsSubentryField o).fields =
      s.fields.map (subentryField (s.ldapSearch.subsearchAttribute o)) := by
  have hflat : ∀ (g : Field → Field) (l : List Format),
      (l.map (Format.mapFields g)).flatMap Format.fields = (l.flatMap Format.fields).map g := by
    intro g l
    simp [List.flatMap_map, List.map_flatMap]
  rw [Step.fields, Step.fields, ← hflat]
  congr 1
  simp only [Step.formats, Step.replaceAttributeAsSubentryField, List.flatMap_map, List.map_append,
    List.map_flatMap, RoleRule.mapFields_formats, mapGrantFields_formats]

/-- A loaded step searches when its fields start with attributes of entries. -/
theorem Step.load_spec {o : Order} {s s' : Step} (h : s.load o = .ok s')
    (hattrs : s.ldapSearch.attributes = []) :
    (s'.fields = [] ↔ s.fields = []) ∧ (s'.hasLDAPSearch = true ↔ s.roots ≠ []) := by
  unfold Step.load at h
  simp only at h
  split at h
  · cases h
  cases h
  rw [Step.replace_fields, List.map_eq_nil_iff]
  unfold Step.hasLDAPSearch Step.replaceAttributeAsSubentryField Step.inferAttributes
  by_cases hroots : s.roots = []
  · rw [if_pos hroots]
    simp [hattrs, hroots]
  · rw [if_neg hroots]
    refine ⟨Iff.rfl, ?_⟩
    simp only [decide_eq_true_eq, gt_iff_lt]
    rw [(Order.range_perm _ _).length_eq, List.length_pos_iff]

theorem Step.staticPart_covered (s : Step) : s.staticPart.Covered := by
  rw [Step.covered_iff]
  refine fun hne => absurd (Step.fields_eq_nil.mpr ⟨fun r hr => ?_, fun r hr => ?_⟩) hne
  · exact (List.mem_filter.mp hr).2
  · exact (List.mem_filter.mp hr).2

theorem Step.dynamicPart_covered : s.dynamicPart.Covered ↔ s.Covered := by
  unfold Step.Covered
  simp [Step.dynamicPart, Step.hasLDAPSearch]

/-- Splitting keeps a step covered or not. -/
theorem Step.split_covered : (∀ s' ∈ s.splitStaticItems, s'.Covered) ↔ s.Covered := by
  rcases s.splitStaticItems_cases with ⟨h, _⟩ | h
  · rw [h, List.forall_mem_singleton]
  · rw [h, List.forall_mem_cons, List.forall_mem_singleton, Step.dynamicPart_covered]
    exact and_iff_left s.staticPart_covered

end Fields

/-- No rule with a field is generated without an entry: the raw text of a format
is only used for formats without fields. -/
def NeverRaw (rules : Rules) : Prop :=
  ∀ (env : Env) (o : Order) (ldapc : Directory), ∀ s ∈ rules, ∀ results,
    .ok results ∈ s.search env o ldapc → results.entry = none →
      (∀ r ∈ s.roleRules, r.isStatic = true) ∧ ∀ r ∈ s.grantRules, r.isStatic = true

theorem neverRaw_iff_covered {rules : Rules} : NeverRaw rules ↔ ∀ s ∈ rules, s.Covered := by
  constructor
  · intro h s hs
    rw [Step.covered_iff]
    intro hfields
    by_contra hsearch
    have hempty : .ok {} ∈ s.search Ldap.Sample.env Order.sorted fun _ _ => .ok [] := by
      rw [Step.search, if_pos (by simpa using hsearch)]
      exact List.mem_singleton.mpr rfl
    exact hfields (Step.fields_eq_nil.mpr (h _ _ _ s hs {} hempty rfl))
  · intro h env o ldapc s hs results hresults hentry
    refine ((h s hs).entry_or_static hresults).resolve_left ?_
    rw [hentry]
    exact Bool.false_ne_true

/-- **When dynamic formats are rendered without an entry.** In a loaded
configuration this never happens exactly when every step that has a field has
one that starts with an attribute other than `dn`; that is when every step with
a dynamic rule searches the directory. `Run` then returns, or panics on a malformed
pattern of the blacklist. -/
theorem loaded_never_raw_iff {o : Order} {items : List Item} {rules : Rules}
    (h : load o items = .ok rules) :
    (NeverRaw rules ↔ ∀ item ∈ items, item.toStep.fields ≠ [] →
      ∃ f ∈ item.toStep.fields, root f.fieldName ≠ "dn") ∧
    (NeverRaw rules ↔ ∀ s ∈ rules, s.Covered) ∧
    (NeverRaw rules → ∀ env reg ctx o connect ldapc configs,
      (∃ out, rules.run env reg ctx o connect ldapc configs = .ok out) ∨
      rules.run env reg ctx o connect ldapc configs = .error .badPattern) := by
  obtain ⟨loaded, hloaded, h⟩ := bind_eq_ok.mp h
  cases h
  have hitem : ∀ (ii : Item × Nat) (s : Step), ii.1.toStep.load (o.sub ii.2) = .ok s →
      (s.Covered ↔ (ii.1.toStep.fields ≠ [] → ∃ f ∈ ii.1.toStep.fields, root f.fieldName ≠ "dn")) := by
    intro ii s hs
    obtain ⟨hfields, hsearch⟩ := Step.load_spec hs rfl
    rw [Step.covered_iff, ne_eq, hfields, hsearch, ne_eq (Step.roots _), Step.roots_eq_nil]
    simp only [not_forall, exists_prop]
  have hcovered : (∀ s ∈ loaded.splitStaticRules, s.Covered) ↔ ∀ item ∈ items,
      item.toStep.fields ≠ [] → ∃ f ∈ item.toStep.fields, root f.fieldName ≠ "dn" := by
    have hsplit : (∀ s ∈ loaded.splitStaticRules, s.Covered) ↔ ∀ s ∈ loaded, s.Covered := by
      simp only [Rules.splitStaticRules, List.forall_mem_flatMap, Step.split_covered]
    rw [hsplit]
    constructor
    · intro hall item hin
      obtain ⟨i, hi⟩ := exists_mem_zipIdx hin
      obtain ⟨s, hs, hload⟩ := mem_mapM_ok hloaded hi
      exact (hitem (item, i) s hload).mp (hall s hs)
    · intro hall s hs
      obtain ⟨ii, hii, hload⟩ := mem_of_mapM_ok hloaded hs
      exact (hitem ii s hload).mpr (hall ii.1 (List.fst_mem_of_mem_zipIdx hii))
  refine ⟨neverRaw_iff_covered.trans hcovered, neverRaw_iff_covered, fun hraw => ?_⟩
  intro env reg ctx o connect ldapc configs
  exact (Rules.run_covered env reg ctx o connect ldapc configs
    (neverRaw_iff_covered.mp hraw)).imp_right And.left

section Sample
open Ldap.Sample Sample

def dnField : Format := ⟨"\x7bdn\x7d", [.field { fieldName := "dn" }]⟩

/-- A role named after the entry. -/
def dnItem : Item where
  roleRules := [roleRule dnField []]

/-- The directory is not searched, and the role is named by the text of the
format. -/
theorem role_named_dn :
    ∃ rules, load Order.sorted [dnItem] = .ok rules ∧
      ∃ out, rules.run env noPrivileges noBlacklist Order.sorted none
          (fun _ _ => .ok [group]) (fun _ => ∅) = .ok out ∧ out.err = none ∧
        "\x7bdn\x7d" ∈ out.roles :=
  ⟨_, rfl, _, rfl, rfl, by decide⟩

/-- With a field on an attribute, `dn` can stand next to it. -/
def memberItem : Item where
  roleRules := [{ roleRule memberField [] with comment := dnField }]

theorem member_with_dn_never_raw :
    ∃ rules, load Order.sorted [memberItem] = .ok rules ∧ NeverRaw rules := by
  obtain ⟨rules, h⟩ : ∃ rules, load Order.sorted [memberItem] = .ok rules := ⟨_, rfl⟩
  refine ⟨rules, h, (loaded_never_raw_iff h).1.mpr fun item hitem _ => ?_⟩
  cases List.mem_singleton.mp hitem
  exact ⟨{ fieldName := "member" }, by decide, by decide⟩

end Sample

end Ldap2pg.Wanted
