import Ldap2pg.Ldap.Caseless
import Ldap2pg.Wanted.Independent

/-! # A step in another letter case

Loading compares names as they are spelled: `dn`, the known RDNs after a dot, and the
attribute of the sub-search. Entries are then read by names up to letter case. A step
whose names are replaced by variants comes out the same when what loading compares is
left alike, and when names stay distinct or equal among the formats that are evaluated
together. -/
namespace Ldap2pg.Wanted.Caseless
open Lib Pyfmt Ldap Ldap.Correlated Ldap.Caseless
open Privileges Roles Wanted.Attributes Wanted.Count
open Wanted.Independent

variable {env : Env} {sub' : String} {s s' : Step} {content : Content}

variable {entry : Entry}

/-! ## 1. Variants of a step -/

/-- What loading compares: `dn` and the known RDNs keep their spelling, and the sub-search
attribute takes a given one. -/
structure Keeps {env : Env} (R : Recasing env) (sub sub' : String) : Prop where
  sub : R.attr sub = sub'
  dn : ∀ a, R.attr a = "dn" ↔ a = "dn"
  fieldDn : R.field "dn" = "dn"
  known : ∀ k, R.field k ∈ defaultKnownRDNs ↔ k ∈ defaultKnownRDNs

/-- Formats that are evaluated together, with one variant for each name. -/
def Together (env : Env) (sub sub' : String) (fmts fmts' : List Format) : Prop :=
  ∃ R : Recasing env, Keeps R sub sub' ∧ List.Forall₂ R.Recases fmts fmts'

structure RecasedRole (env : Env) (sub sub' : String) (r r' : RoleRule) : Prop where
  head : Together env sub sub' (headFormats r) (headFormats r')
  parents : List.Forall₂ (fun m m' => Together env sub sub' [m] [m']) r.parents r'.parents
  options : r'.options = r.options
  config : r'.config = r.config

structure RecasedItem (env : Env) (sub sub' : String) (item item' : Item) : Prop where
  base : item'.base = item.base
  scope : item'.scope = item.scope
  filter : item'.filter = item.filter
  joins : item'.joins = item.joins
  roles : List.Forall₂ (RecasedRole env sub sub') item.roleRules item'.roleRules
  grants : List.Forall₂ (fun g g' => Together env sub sub' g.formats g'.formats)
    item.grantRules item'.grantRules
  key : env.equalFold sub sub' = true
  /-- the key of a join is not a field -/
  joined : item.joins ≠ ∅ → sub' = sub

/-! ## 2. Loading a variant -/

section Fields
variable {R : Recasing env} {sub : String}

theorem subField_onField (h : Keeps R sub sub') (x : Field) :
    subField (R.onField x) = (subField x).map (Prod.map R.attr R.field) := by
  show subField { x with fieldName := R.name x.fieldName } = _
  unfold subField
  rcases cut_cases x.fieldName with ⟨hdot, hcut⟩ | ⟨a, rest, hdot, hname, hcut⟩
  · simp [hcut, cut_name_plain R hdot]
  · have hcut' : cut '.' (R.name x.fieldName) = (R.attr a, R.field rest, true) := by
      rw [hname, cut_name_dotted R hdot]
    simp only [hcut, hcut', h.dn, h.known]
    split <;> rfl

theorem subentryField_onField (h : Keeps R sub sub') (x : Field) :
    subentryField sub' (R.onField x) = R.onField (subentryField sub x) := by
  show subentryField sub' { x with fieldName := R.name x.fieldName } = _
  unfold subentryField
  rcases cut_cases x.fieldName with ⟨hdot, hcut⟩ | ⟨a, rest, hdot, hname, hcut⟩
  · have hkey : R.attr x.fieldName = sub' ↔ x.fieldName = sub := by
      rw [← h.sub, R.attr_inj.eq_iff]
    have hassoc : ∀ a : String, a ++ ".dn" = a ++ "." ++ "dn" := fun a => by
      rw [String.append_assoc]; rfl
    simp only [hcut, cut_name_plain R hdot, hkey, and_true]
    split
    · simp only [Recasing.onField, hassoc, name_dotted R hdot, h.fieldDn]
    · rfl
  · have hcut' : cut '.' (R.name x.fieldName) = (R.attr a, R.field rest, true) := by
      rw [hname, cut_name_dotted R hdot]
    simp [hcut, hcut', Recasing.onField]

theorem mapFields_static {f : Format} (h : f.isStatic = true) (g : Field → Field) :
    f.mapFields g = f := by
  have hsections : f.sections.map (Section.mapField g) = f.sections.map id := by
    refine List.map_congr_left fun s hs => ?_
    cases s with
    | literal text => rfl
    | field x =>
      have hx : x ∈ f.fields := List.mem_filterMap.mpr ⟨.field x, hs, rfl⟩
      rw [isStatic_iff.mp h] at hx
      cases hx
  rw [Format.mapFields, hsections, List.map_id]

/-- Loading keeps variants apart from the sub-search attribute, which it extends alike. -/
theorem recases_loaded (h : Keeps R sub sub') {f f' : Format} (hf : R.Recases f f') :
    R.Recases (f.mapFields (subentryField sub)) (f'.mapFields (subentryField sub')) := by
  refine ⟨?_, fun hstatic => ?_⟩
  · simp only [Format.mapFields, hf.sections, List.map_map]
    refine List.map_congr_left fun s _ => ?_
    cases s with
    | literal text => rfl
    | field x => exact congrArg Section.field (subentryField_onField h x)
  · rw [mapFields_isStatic] at hstatic
    rw [hf.static hstatic, mapFields_static hstatic, mapFields_static hstatic]

theorem Together.loaded {fmts fmts' : List Format} (h : Together env sub sub' fmts fmts') :
    Together env sub sub' (fmts.map (Format.mapFields (subentryField sub)))
      (fmts'.map (Format.mapFields (subentryField sub'))) := by
  obtain ⟨R, hR, hfmts⟩ := h
  refine ⟨R, hR, ?_⟩
  rw [List.forall₂_map_left_iff, List.forall₂_map_right_iff]
  exact hfmts.imp fun f f' hf => recases_loaded hR hf

theorem RecasedRole.loaded {r r' : RoleRule} (h : RecasedRole env sub sub' r r') :
    RecasedRole env sub sub' (r.mapFields (subentryField sub)) (r'.mapFields (subentryField sub')) := by
  refine ⟨h.head.loaded, ?_, h.options, h.config⟩
  simp only [RoleRule.mapFields, List.forall₂_map_left_iff, List.forall₂_map_right_iff]
  exact h.parents.imp fun m m' hm => hm.loaded

/-- Fields of the two steps, in turn. -/
def FieldRel (env : Env) (sub sub' : String) (x x' : Field) : Prop :=
  ∃ R : Recasing env, Keeps R sub sub' ∧ x' = R.onField x

theorem Together.fields {fmts fmts' : List Format} (h : Together env sub sub' fmts fmts') :
    List.Forall₂ (FieldRel env sub sub') (fmts.flatMap Format.fields) (fmts'.flatMap Format.fields) := by
  obtain ⟨R, hR, hfmts⟩ := h
  rw [fields_recased R hfmts, List.forall₂_map_right_iff]
  exact List.forall₂_same.mpr fun x _ => ⟨R, hR, rfl⟩

theorem RecasedRole.fields {r r' : RoleRule} (h : RecasedRole env sub sub' r r') :
    List.Forall₂ (FieldRel env sub sub') (r.formats.flatMap Format.fields)
      (r'.formats.flatMap Format.fields) := by
  show List.Forall₂ _ ((headFormats r ++ r.parents).flatMap _) ((headFormats r' ++ r'.parents).flatMap _)
  rw [List.flatMap_append, List.flatMap_append]
  refine List.rel_append h.head.fields (List.rel_flatMap h.parents fun m m' hm => ?_)
  simpa using hm.fields

theorem RecasedItem.fields {item item' : Item} (h : RecasedItem env sub sub' item item') :
    List.Forall₂ (FieldRel env sub sub') item.toStep.fields item'.toStep.fields := by
  simp only [Step.fields, Step.formats, List.flatMap_append, List.flatMap_assoc]
  refine List.rel_append (List.rel_flatMap h.roles fun r r' hr => hr.fields) ?_
  exact List.rel_flatMap h.grants fun g g' hg => hg.fields

end Fields

/-- The same names up to letter case. -/
def SameNames (env : Env) (l l' : List String) : Prop :=
  (∀ a ∈ l, ∃ a' ∈ l', env.equalFold a a' = true) ∧ ∀ a' ∈ l', ∃ a ∈ l, env.equalFold a a' = true

structure SameRequest (env : Env) (q q' : Request) : Prop where
  base : q'.base = q.base
  scope : q'.scope = q.scope
  filter : q'.filter = q.filter
  attributes : SameNames env q.attributes q'.attributes

/-- The same searches, and the same sub-searches on the same attribute. -/
structure SameRequests (env : Env) (s s' : Step) : Prop where
  searches : s'.hasLDAPSearch = s.hasLDAPSearch
  request : SameRequest env s.request s'.request
  key : env.equalFold (fkey s) (fkey s') = true
  subRequest : ∀ base, SameRequest env (s.subRequest (fkey s) base) (s'.subRequest (fkey s') base)

section Load
variable {item item' : Item}

theorem mem_fields (h : RecasedItem env (fkey s) sub' item item') :
    (∀ x ∈ item.toStep.fields, ∃ x' ∈ item'.toStep.fields, FieldRel env (fkey s) sub' x x') ∧
      ∀ x' ∈ item'.toStep.fields, ∃ x ∈ item.toStep.fields, FieldRel env (fkey s) sub' x x' := by
  refine ⟨fun x hx => ?_, fun x' hx' => ?_⟩
  · obtain ⟨x', hx', hrel⟩ := exists_of_forall₂ h.fields hx
    exact ⟨x', hx', hrel⟩
  · obtain ⟨x, hx, hrel⟩ := exists_of_forall₂ h.fields.flip hx'
    exact ⟨x, hx, hrel⟩

/-- A sub-field of the variant is one of the attribute, renamed. -/
theorem exists_subField (hs : LoadSpec item s) (h : RecasedItem env (fkey s) sub' item item')
    {x' : Field} {a' rest' : String} (hx' : x' ∈ item'.toStep.fields)
    (hsub' : subField x' = some (a', rest')) :
    ∃ x ∈ item.toStep.fields, ∃ (R : Recasing env) (rest : String),
      subField x = some (fkey s, rest) ∧ a' = sub' ∧ rest' = R.field rest := by
  obtain ⟨x, hx, R, hR, rfl⟩ := (mem_fields h).2 x' hx'
  rw [subField_onField hR, Option.map_eq_some_iff] at hsub'
  obtain ⟨⟨a, rest⟩, hsub, hpair⟩ := hsub'
  cases hpair
  have hkey := hs.fkey_eq a (.inl (mem_subFirsts.mpr ⟨x, hx, rest, hsub⟩))
  exact ⟨x, hx, R, rest, hkey ▸ hsub, hkey ▸ hR.sub, rfl⟩

/-- All sub-searches of the variant start from the variant of the attribute. -/
theorem recased_key (hs : LoadSpec item s) (h : RecasedItem env (fkey s) sub' item item') {k' : String}
    (hk' : k' ∈ subFirsts item'.toStep.fields ∨ k' ∈ item'.joins) : k' = sub' := by
  rcases hk' with hk' | hk'
  · obtain ⟨x', hx', rest', hsub'⟩ := mem_subFirsts.mp hk'
    obtain ⟨_, _, _, _, _, hkey, _⟩ := exists_subField hs h hx' hsub'
    exact hkey
  · rw [h.joins] at hk'
    have hne : item.joins ≠ ∅ := fun hempty => by rw [hempty] at hk'; simp at hk'
    rw [h.joined hne]
    exact (hs.fkey_eq k' (.inr hk')).symm

theorem mem_firsts (h : RecasedItem env (fkey s) sub' item item') (hs : LoadSpec item s) :
    sub' ∈ subFirsts item'.toStep.fields ↔ fkey s ∈ subFirsts item.toStep.fields := by
  simp only [mem_subFirsts]
  constructor
  · intro ⟨x', hx', rest', hsub'⟩
    obtain ⟨x, hx, _, rest, hsub, _⟩ := exists_subField hs h hx' hsub'
    exact ⟨x, hx, rest, hsub⟩
  · intro ⟨x, hx, rest, hsub⟩
    obtain ⟨x', hx', R, hR, rfl⟩ := (mem_fields h).1 x hx
    exact ⟨_, hx', R.field rest, by rw [subField_onField hR, hsub, ← hR.sub]; rfl⟩

theorem fkey_recased (hfold : CaseFolds env) (hs : LoadSpec item s) (hs' : LoadSpec item' s')
    (h : RecasedItem env (fkey s) sub' item item') : fkey s' = sub' := by
  by_cases hnone : fkey s = ""
  · have hempty : sub' = "" := hfold.empty sub' (hnone ▸ h.key)
    by_contra hne
    exact hne (recased_key hs h (hs'.fkey_mem (hempty ▸ hne)))
  · refine hs'.fkey_eq sub' ?_
    rcases hs.fkey_mem hnone with hfirst | hjoin
    · exact .inl ((mem_firsts h hs).mpr hfirst)
    · have hne : item.joins ≠ ∅ := fun hempty => by rw [hempty] at hjoin; simp at hjoin
      rw [h.joined hne, h.joins]
      exact .inr hjoin

theorem attributes_recased (h : RecasedItem env (fkey s) sub' item item') (hs : LoadSpec item s)
    (hs' : LoadSpec item' s') : SameNames env s.ldapSearch.attributes s'.ldapSearch.attributes := by
  refine ⟨fun a ha => ?_, fun a' ha' => ?_⟩
  · obtain ⟨hdn, x, hx, rfl⟩ := Step.mem_roots.mp ((hs.attributes a).mp ha)
    obtain ⟨x', hx', R, hR, rfl⟩ := (mem_fields h).1 x hx
    refine ⟨R.attr (root x.fieldName), (hs'.attributes _).mpr (Step.mem_roots.mpr ⟨?_, _, hx', ?_⟩),
      R.attr_fold _⟩
    · exact fun heq => hdn ((hR.dn _).mp heq)
    · exact root_name R x.fieldName
  · obtain ⟨hdn, x', hx', rfl⟩ := Step.mem_roots.mp ((hs'.attributes a').mp ha')
    obtain ⟨x, hx, R, hR, rfl⟩ := (mem_fields h).2 x' hx'
    have hroot : root (R.onField x).fieldName = R.attr (root x.fieldName) := root_name R x.fieldName
    rw [hroot] at hdn ⊢
    refine ⟨root x.fieldName, (hs.attributes _).mpr (Step.mem_roots.mpr ⟨?_, x, hx, rfl⟩),
      R.attr_fold _⟩
    exact fun heq => hdn ((hR.dn _).mpr heq)

theorem subAttributes_recased (hfold : CaseFolds env) (h : RecasedItem env (fkey s) sub' item item')
    (hs : LoadSpec item s) (hs' : LoadSpec item' s') :
    SameNames env (subAttributes s (fkey s)) (subAttributes s' (fkey s')) := by
  rw [fkey_recased hfold hs hs' h]
  refine ⟨fun a ha => ?_, fun a' ha' => ?_⟩
  · obtain ⟨x, hx, hsub⟩ := mem_subFields.mp ((hs.subAttributes _ a).mp ha)
    obtain ⟨x', hx', R, hR, rfl⟩ := (mem_fields h).1 x hx
    refine ⟨R.field a, (hs'.subAttributes _ _).mpr (mem_subFields.mpr ⟨_, hx', ?_⟩), R.field_fold a⟩
    rw [subField_onField hR, hsub, ← hR.sub]
    rfl
  · obtain ⟨x', hx', hsub'⟩ := mem_subFields.mp ((hs'.subAttributes _ a').mp ha')
    obtain ⟨x, hx, R, rest, hsub, _, rfl⟩ := exists_subField hs h hx' hsub'
    exact ⟨rest, (hs.subAttributes _ _).mpr (mem_subFields.mpr ⟨x, hx, hsub⟩), R.field_fold rest⟩

/-- **The variant asks the directory the same.** -/
theorem requests_recased (hfold : CaseFolds env) (h : RecasedItem env (fkey s) sub' item item')
    (hs : LoadSpec item s) (hs' : LoadSpec item' s') : SameRequests env s s' := by
  have hkey := fkey_recased hfold hs hs' h
  have hattributes := attributes_recased h hs hs'
  have hpair : s'.ldapSearch.subsearches[fkey s']?.map (fun sub => (sub.filter, sub.scope)) =
      s.ldapSearch.subsearches[fkey s]?.map fun sub => (sub.filter, sub.scope) := by
    have hjoin : item.joins[fkey s]? = item.joins[sub']? := by
      by_cases hempty : item.joins = ∅
      · simp [hempty]
      · rw [h.joined hempty]
    rw [hs.subsearches, hs'.subsearches, hkey, h.joins, hjoin]
    simp only [mem_firsts h hs]
  have hget : ∀ (t : Step) (k base : String), t.subRequest k base =
      ⟨base, ((t.ldapSearch.subsearches[k]?.map fun sub => (sub.filter, sub.scope)).getD ("", .base)).2,
        ((t.ldapSearch.subsearches[k]?.map fun sub => (sub.filter, sub.scope)).getD ("", .base)).1,
        subAttributes t k⟩ := by
    intro t k base
    unfold Step.subRequest subAttributes
    cases t.ldapSearch.subsearches[k]? <;> rfl
  refine ⟨?_, ⟨?_, ?_, ?_, hattributes⟩, hkey ▸ h.key, fun base => ?_⟩
  · unfold Step.hasLDAPSearch
    rw [decide_eq_decide, gt_iff_lt, gt_iff_lt, List.length_pos_iff_exists_mem,
      List.length_pos_iff_exists_mem]
    constructor
    · intro ⟨a', ha'⟩
      obtain ⟨a, ha, _⟩ := hattributes.2 a' ha'
      exact ⟨a, ha⟩
    · intro ⟨a, ha⟩
      obtain ⟨a', ha', _⟩ := hattributes.1 a ha
      exact ⟨a', ha'⟩
  · exact hs'.base.trans (h.base.trans hs.base.symm)
  · exact hs'.scope.trans (h.scope.trans hs.scope.symm)
  · exact hs'.filter.trans (h.filter.trans hs.filter.symm)
  · rw [hget, hget, hpair]
    exact ⟨rfl, rfl, rfl, subAttributes_recased hfold h hs hs'⟩

end Load

/-! ## 3. Searches -/

section Search

theorem restrict_sameNames (hfold : CaseFolds env) {l l' : List String} (h : SameNames env l l')
    (e : Entry) : restrict env l' e = restrict env l e := by
  have hany : ∀ x, l'.any (env.equalFold · x) = l.any (env.equalFold · x) := by
    intro x
    rw [Bool.eq_iff_iff, List.any_eq_true, List.any_eq_true]
    constructor
    · intro ⟨a', ha', hx⟩
      obtain ⟨a, ha, hsame⟩ := h.2 a' ha'
      exact ⟨a, ha, hfold.trans a a' x hsame hx⟩
    · intro ⟨a, ha, hx⟩
      obtain ⟨a', ha', hsame⟩ := h.1 a ha
      exact ⟨a', ha', hfold.trans a' a x (hfold.symm a a' hsame) hx⟩
  simp only [restrict, hany]

theorem serve_sameRequest (hfold : CaseFolds env) {q q' : Request} (h : SameRequest env q q')
    (site site' : List Nat) : serve env content site' q' = serve env content site q := by
  unfold serve
  rw [h.base, h.scope, h.filter]
  exact congrArg Except.ok (List.map_congr_left fun e _ => restrict_sameNames hfold h.attributes e)

/-- The same entry and sub-entries, for a sub-search under another name. -/
structure SameResult (s s' : Step) (r r' : Result) : Prop where
  entry : r'.entry = r.entry
  subsearchEntries : r'.subsearchEntries = r.subsearchEntries
  key : r.entry.isSome = true → r.subsearchAttribute = fkey s ∧ r'.subsearchAttribute = fkey s'

/-- The two steps get the same results in turn; one without an entry if they do not search. -/
theorem search_recased (hfold : CaseFolds env) (h : SameRequests env s s')
    (horder : ∀ o, s.ldapSearch.subsearchAttribute o = fkey s)
    (horder' : ∀ o, s'.ldapSearch.subsearchAttribute o = fkey s') (o o' : Order) :
    List.Forall₂ (fun x x' => ∃ r r', x = .ok r ∧ x' = .ok r' ∧ SameResult s s' r r' ∧
        (r.entry = none → s.hasLDAPSearch = false))
      (s.search env o (serve env content)) (s'.search env o' (serve env content)) := by
  unfold Step.search
  rw [h.searches]
  cases hsearch : s.hasLDAPSearch with
  | false =>
    simp only [if_true]
    exact .cons ⟨{}, {}, rfl, rfl, ⟨rfl, rfl, fun hsome => by cases hsome⟩, fun _ => trivial⟩ .nil
  | true =>
    simp only [Bool.true_eq_false, if_false]
    rw [serve_sameRequest hfold h.request [0] [0]]
    have hempty : fkey s' = "" ↔ fkey s = "" := by
      constructor
      · intro hnone
        exact hfold.empty _ (hfold.symm _ _ (hnone ▸ h.key))
      · intro hnone
        exact hfold.empty _ (hnone ▸ h.key)
    have hsame : ∀ {α : Type} (l : List α), List.Forall₂ Eq l l :=
      fun l => List.forall₂_same.mpr fun _ _ => rfl
    simp only [serve, horder, horder']
    refine List.rel_flatMap (hsame _) fun ei ei' hei => ?_
    subst hei
    by_cases hnone : fkey s = ""
    · rw [if_pos hnone, if_pos (hempty.mpr hnone)]
      exact .cons ⟨_, _, rfl, rfl, ⟨rfl, rfl, fun _ => ⟨hnone.symm, (hempty.mpr hnone).symm⟩⟩,
        fun hentry => by cases hentry⟩ .nil
    · rw [if_neg hnone, if_neg (hempty.not.mpr hnone), ← values_fold hfold h.key]
      refine List.rel_map (fun bj bj' hbj => ?_) (hsame _)
      subst hbj
      refine ⟨_, _, rfl, rfl, ⟨rfl, ?_, fun _ => ⟨rfl, rfl⟩⟩, fun hentry => by cases hentry⟩
      exact Except.ok.inj (serve_sameRequest hfold (h.subRequest bj.1) [] [])

end Search

/-! ## 4. Rules -/

section Rules
variable {results results' : Result}

/-- The same memberships, and the same roles, up to order. -/
structure SameRole (env : Env) (results results' : Result) (r r' : RoleRule) : Prop where
  heads : ∀ o o', (r.generateHeads env o results).Perm (r'.generateHeads env o' results')
  parents : ∀ o o', ∃ l l', r.generateParents env o results = .ok l ∧
    r'.generateParents env o' results' = .ok l' ∧ l.Perm l'
  config : r'.config = r.config

theorem parents_perm {results results' : Result} {r r' : RoleRule} {o o' : Order}
    (h : List.Forall₂ (fun mi mi' : Format × Nat => ∃ l l',
      generateParent env (o.sub mi.2) results mi.1 = .ok l ∧
        generateParent env (o'.sub mi'.2) results' mi'.1 = .ok l' ∧ l.Perm l')
      r.parents.zipIdx r'.parents.zipIdx) :
    ∃ l l', r.generateParents env o results = .ok l ∧
      r'.generateParents env o' results' = .ok l' ∧ l.Perm l' := by
  obtain ⟨outs, outs', houts, houts', hperm⟩ := exists_mapM_forall₂ h
  unfold RoleRule.generateParents
  rw [houts, houts']
  exact ⟨_, _, rfl, rfl, hperm⟩

/-- The same grants, up to order. -/
def SameGrants (env : Env) (results results' : Result) (g g' : GrantRule) : Prop :=
  ∀ reg o o', ∃ l l', g.generate env reg o results = .ok l ∧
    g'.generate env reg o' results' = .ok l' ∧ l.Perm l'

/-- Formats render the same texts from corresponding values. -/
theorem render_together {R : Recasing env} {fmts : List Format} {values values' : Values}
    (h : ∀ e ∈ expressionsOf fmts, values'[R.name e]? = values[e]?) {f f' : Format} (hf : f ∈ fmts)
    (hrec : R.Recases f f') : f.render env.toStrings values = f'.render env.toStrings values' := by
  refine (render_recased R hrec fun x hx => h _ ?_).symm
  simp only [expressionsOf, List.mem_dedup, List.mem_map, List.mem_flatMap]
  exact ⟨x, ⟨f, hf, hx⟩, rfl⟩

/-- Values of formats that are evaluated together in a result with an entry. -/
theorem values_together (hfold : CaseFolds env) (hresult : SameResult s s' results results')
    (hentry : results.entry = some entry) (hdot : '.' ∉ (fkey s).toList) {R : Recasing env}
    (hR : Keeps R (fkey s) (fkey s')) {fmts fmts' : List Format}
    (hproper : Proper env (fkey s) (expressionsOf fmts)) (h : List.Forall₂ R.Recases fmts fmts')
    (o o' : Order) {γ : Type} {g g' : Values → γ}
    (hg : ∀ v v' : Values, (∀ e ∈ expressionsOf fmts, v'[R.name e]? = v[e]?) → g v = g' v') :
    ((results.generateValues env o entry fmts).map g).Perm
      ((results'.generateValues env o' entry fmts').map g') := by
  obtain ⟨hkey, hkey'⟩ := hresult.key (by rw [hentry]; rfl)
  refine generateValues_recased hfold R ?_ hresult.subsearchEntries ?_ h ?_ entry o o' hg
  · rw [hkey', hkey, hR.sub]
  · rwa [hkey]
  · rwa [hkey]

theorem isStatic_recased {R : Recasing env} {f f' : Format} (h : R.Recases f f') :
    f'.isStatic = f.isStatic := by
  have hfields : f'.fields = f.fields.map R.onField := by
    rw [← mapFields_fields]
    exact congrArg (List.filterMap Section.field?) h.sections
  simp [Format.isStatic, hfields]

theorem parent_recased (hfold : CaseFolds env) (hresult : SameResult s s' results results')
    (hentry : results.entry = some entry) (hdot : '.' ∉ (fkey s).toList) {m m' : Format}
    (hproper : Proper env (fkey s) (expressionsOf [m]))
    (h : Together env (fkey s) (fkey s') [m] [m']) (o o' : Order) :
    ∃ l l', generateParent env o results m = .ok l ∧ generateParent env o' results' m' = .ok l' ∧
      l.Perm l' := by
  obtain ⟨R, hR, hfmts⟩ := h
  have hm : R.Recases m m' := (List.forall₂_cons.mp hfmts).1
  cases hstatic : m.isStatic with
  | true =>
    rw [hm.static hstatic]
    exact ⟨_, _, generateParent_static hstatic, generateParent_static hstatic, .refl _⟩
  | false =>
    refine ⟨_, _, generateParent_dynamic hentry hstatic,
      generateParent_dynamic (hresult.entry.trans hentry) ((isStatic_recased hm).trans hstatic),
      values_together hfold hresult hentry hdot hR hproper hfmts o o' fun v v' hv => ?_⟩
    rw [render_together hv (List.mem_singleton_self m) hm]

theorem forall₂_zipIdx {α β : Type} {P : α → β → Prop} {l : List α} {l' : List β}
    (h : List.Forall₂ P l l') (n : Nat) :
    List.Forall₂ (fun a b => P a.1 b.1) (l.zipIdx n) (l'.zipIdx n) := by
  induction h generalizing n with
  | nil => exact .nil
  | cons h _ ih => exact .cons h (ih (n + 1))

/-- **A rule generates the same roles** from an entry. -/
theorem role_recased (hfold : CaseFolds env) (hresult : SameResult s s' results results')
    (hentry : results.entry = some entry) (hdot : '.' ∉ (fkey s).toList) {r r' : RoleRule}
    (hhead : Proper env (fkey s) (expressionsOf (headFormats r)))
    (hparents : ∀ m ∈ r.parents, Proper env (fkey s) (expressionsOf [m]))
    (h : RecasedRole env (fkey s) (fkey s') r r') : SameRole env results results' r r' := by
  refine ⟨fun o o' => ?_, fun o o' => ?_, h.config⟩
  · obtain ⟨R, hR, hfmts⟩ := h.head
    unfold RoleRule.generateHeads
    rw [hresult.entry, hentry]
    refine values_together hfold hresult hentry hdot hR hhead hfmts o o' fun v v' hv => ?_
    simp only [headFormats, List.forall₂_cons, List.forall₂_nil_left_iff, and_true] at hfmts
    obtain ⟨hname, hcomment, hbefore, hafter⟩ := hfmts
    rw [render_together hv (by simp [headFormats]) hname,
      render_together hv (by simp [headFormats]) hcomment,
      render_together hv (by simp [headFormats]) hbefore,
      render_together hv (by simp [headFormats]) hafter, h.options]
  · exact parents_perm <|
      (forall₂_zipIdx ((List.forall₂_and_left _ _).mpr ⟨hparents, h.parents⟩) 0).imp
        fun mi mi' hmi => parent_recased hfold hresult hentry hdot hmi.1 hmi.2 _ _

/-- The grants of some values, which never panic. -/
def grantsFor (env : Env) (reg : Registry) (g : GrantRule) (values : Values) : List Grant :=
  (g.grants env reg (some values)).toOption.getD []

theorem generate_eq_grantsFor (hentry : results.entry = some entry) (reg : Registry) (g : GrantRule)
    (o : Order) : g.generate env reg o results =
      .ok ((results.generateValues env o entry g.formats).map (grantsFor env reg g)).flatten := by
  have hmap : ((results.generateValues env o entry g.formats).map some).mapM (g.grants env reg) =
      .ok ((results.generateValues env o entry g.formats).map (grantsFor env reg g)) := by
    refine mapM_ok_iff.mpr ?_
    rw [List.forall₂_map_left_iff, List.forall₂_map_right_iff]
    refine List.forall₂_same.mpr fun values _ => ?_
    obtain ⟨l, hl⟩ : ∃ l, g.grants env reg (some values) = .ok l :=
      GrantRule.grants_ok env reg (.inl rfl)
    rw [grantsFor, hl]
    rfl
  unfold GrantRule.generate GrantRule.vchan
  rw [hentry]
  simp only [hmap]
  rfl

/-- **A rule generates the same grants** from an entry. -/
theorem grants_recased (hfold : CaseFolds env) (hresult : SameResult s s' results results')
    (hentry : results.entry = some entry) (hdot : '.' ∉ (fkey s).toList) {g g' : GrantRule}
    (hproper : Proper env (fkey s) (expressionsOf g.formats))
    (h : Together env (fkey s) (fkey s') g.formats g'.formats) :
    SameGrants env results results' g g' := by
  intro reg o o'
  obtain ⟨R, hR, hfmts⟩ := h
  refine ⟨_, _, generate_eq_grantsFor hentry reg g o,
    generate_eq_grantsFor (hresult.entry.trans hentry) reg g' o', ?_⟩
  refine (values_together hfold hresult hentry hdot hR hproper hfmts o o' fun v v' hv => ?_).flatten
  have hsame : g.grants env reg (some v) = g'.grants env reg (some v') := by
    simp only [GrantRule.formats, List.forall₂_cons, List.forall₂_nil_left_iff, and_true] at hfmts
    obtain ⟨howner, hprivilege, hdatabase, hschema, hrole⟩ := hfmts
    have hgrant : g.grant env reg (some v) = g'.grant env reg (some v') := by
      funext priv
      simp only [GrantRule.grant, formatIf, format_some,
        render_together hv (by simp [GrantRule.formats]) howner,
        render_together hv (by simp [GrantRule.formats]) hdatabase,
        render_together hv (by simp [GrantRule.formats]) hschema,
        render_together hv (by simp [GrantRule.formats]) hrole]
    simp only [GrantRule.grants, format_some, hgrant,
      render_together hv (by simp [GrantRule.formats]) hprivilege]
  rw [grantsFor, grantsFor, hsame]

theorem eq_of_static {fmts fmts' : List Format} {sub sub' : String}
    (h : Together env sub sub' fmts fmts') (hstatic : ∀ f ∈ fmts, f.isStatic = true) : fmts' = fmts := by
  obtain ⟨R, _, hfmts⟩ := h
  have hsame := ((List.forall₂_and_left _ _).mpr ⟨hstatic, hfmts⟩).imp fun f f' hf => (hf.2.static hf.1).symm
  exact (List.forall₂_eq_eq_eq ▸ hsame : fmts = fmts').symm

/-- A rule without a field is left as it is. -/
theorem role_static {sub sub' : String} {r r' : RoleRule} (h : RecasedRole env sub sub' r r')
    (hstatic : r.isStatic = true) : r' = r := by
  have hformats := RoleRule.static_formats hstatic
  have hhead := eq_of_static h.head fun f hf => hformats f (List.mem_append_left _ hf)
  have hparents : r'.parents = r.parents := by
    have hsame : List.Forall₂ Eq r.parents r'.parents :=
      ((List.forall₂_and_left _ _).mpr ⟨fun m hm => hformats m (List.mem_append_right _ hm), h.parents⟩).imp
        fun m m' hm => by
          have hone := eq_of_static hm.2 fun f hf => List.mem_singleton.mp hf ▸ hm.1
          exact (List.singleton_inj.mp hone).symm
    exact (List.forall₂_eq_eq_eq ▸ hsame : r.parents = r'.parents).symm
  simp only [headFormats, List.cons.injEq, and_true] at hhead
  obtain ⟨hname, hcomment, hbefore, hafter⟩ := hhead
  cases r
  cases r'
  simp only at hname hcomment hbefore hafter hparents
  have hoptions := h.options
  have hconfig := h.config
  simp_all

theorem grant_static {sub sub' : String} {g g' : GrantRule}
    (h : Together env sub sub' g.formats g'.formats) (hstatic : g.isStatic = true) : g' = g := by
  have hformats := eq_of_static h (GrantRule.static_formats hstatic)
  simp only [GrantRule.formats, List.cons.injEq, and_true] at hformats
  obtain ⟨howner, hprivilege, hdatabase, hschema, hrole⟩ := hformats
  cases g
  cases g'
  simp_all

/-- Without an entry, a rule without a field does not depend on any order. -/
theorem role_raw (hentry : results.entry = none) (hentry' : results'.entry = none) {r : RoleRule}
    (hstatic : r.isStatic = true) : SameRole env results results' r r := by
  refine ⟨fun o o' => ?_, fun o o' => ?_, rfl⟩
  · simp only [RoleRule.generateHeads, hentry, hentry']
    exact .refl _
  · refine parents_perm (List.forall₂_same.mpr fun mi hmi => ?_)
    obtain ⟨l, hl⟩ : ∃ l, generateParent env (o.sub mi.2) results mi.1 = .ok l :=
      generateParent_ok env _ (.inr (RoleRule.static_formats hstatic mi.1
        (List.mem_append_right _ (List.fst_mem_of_mem_zipIdx hmi))))
    have hsame : generateParent env (o'.sub mi.2) results' mi.1 =
        generateParent env (o.sub mi.2) results mi.1 := by
      simp only [generateParent, hentry, hentry']
    exact ⟨l, l, hl, hsame.trans hl, .refl _⟩

theorem grants_raw (hentry : results.entry = none) (hentry' : results'.entry = none) {g : GrantRule}
    (hstatic : g.isStatic = true) : SameGrants env results results' g g := by
  intro reg o o'
  have hsame : g.generate env reg o' results' = g.generate env reg o results := by
    simp only [GrantRule.generate, GrantRule.vchan, hentry, hentry']
  obtain ⟨l, hl⟩ : ∃ l, g.generate env reg o results = .ok l :=
    GrantRule.generate_ok reg o (.inr hstatic)
  exact ⟨l, l, hl, hsame.trans hl, .refl _⟩

end Rules

/-! ## 5. The step -/

section Step
variable {t t' : Step}

/-- Each result of a step and the same result of the other give the same roles and grants. -/
def SameOutcome (env : Env) (content : Content) (t t' : Step) : Prop :=
  ∀ o o', List.Forall₂ (fun x x' => ∃ r r', x = .ok r ∧ x' = .ok r' ∧
      List.Forall₂ (SameRole env r r') t.roleRules t'.roleRules ∧
      List.Forall₂ (SameGrants env r r') t.grantRules t'.grantRules)
    (t.search env o (serve env content)) (t'.search env o' (serve env content))

/-- Rules of two loaded steps, in turn. -/
structure RecasedRules (env : Env) (s s' t t' : Step) : Prop where
  roles : List.Forall₂ (RecasedRole env (fkey s) (fkey s')) t.roleRules t'.roleRules
  grants : List.Forall₂ (fun g g' => Together env (fkey s) (fkey s') g.formats g'.formats)
    t.grantRules t'.grantRules

/-- What `GenerateValues` needs of the formats of some rules. -/
structure ProperRules (env : Env) (s t : Step) : Prop where
  roles : ∀ r ∈ t.roleRules, Proper env (fkey s) (expressionsOf (headFormats r)) ∧
    ∀ m ∈ r.parents, Proper env (fkey s) (expressionsOf [m])
  grants : ∀ g ∈ t.grantRules, Proper env (fkey s) (expressionsOf g.formats)

theorem ProperRules.of_subset (h : ProperRules env s t) (hroles : t'.roleRules ⊆ t.roleRules)
    (hgrants : t'.grantRules ⊆ t.grantRules) : ProperRules env s t' :=
  ⟨fun r hr => h.roles r (hroles hr), fun g hg => h.grants g (hgrants hg)⟩

theorem rules_alike (hfold : CaseFolds env) {results results' : Result}
    (hresult : SameResult s s' results results') (hdot : '.' ∉ (fkey s).toList)
    (hproper : ProperRules env s t) (hrules : RecasedRules env s s' t t')
    (hstatic : results.entry = none → (∀ r ∈ t.roleRules, r.isStatic = true) ∧
      ∀ g ∈ t.grantRules, g.isStatic = true) :
    List.Forall₂ (SameRole env results results') t.roleRules t'.roleRules ∧
      List.Forall₂ (SameGrants env results results') t.grantRules t'.grantRules := by
  cases hentry : results.entry with
  | some entry =>
    refine ⟨((List.forall₂_and_left _ _).mpr ⟨hproper.roles, hrules.roles⟩).imp fun r r' h => ?_,
      ((List.forall₂_and_left _ _).mpr ⟨hproper.grants, hrules.grants⟩).imp fun g g' h => ?_⟩
    · exact role_recased hfold hresult hentry hdot h.1.1 h.1.2 h.2
    · exact grants_recased hfold hresult hentry hdot h.1 h.2
  | none =>
    obtain ⟨hroles, hgrants⟩ := hstatic hentry
    have hentry' : results'.entry = none := hresult.entry.trans hentry
    refine ⟨((List.forall₂_and_left _ _).mpr ⟨hroles, hrules.roles⟩).imp fun r r' h => ?_,
      ((List.forall₂_and_left _ _).mpr ⟨hgrants, hrules.grants⟩).imp fun g g' h => ?_⟩
    · rw [role_static h.2 h.1]
      exact role_raw hentry hentry' h.1
    · rw [grant_static h.2 h.1]
      exact grants_raw hentry hentry' h.1

theorem RecasedRole.isStatic {sub sub' : String} {r r' : RoleRule}
    (h : RecasedRole env sub sub' r r') : r.isStatic = r'.isStatic := by
  rw [Bool.eq_iff_iff, RoleRule.isStatic_iff, RoleRule.isStatic_iff, ← List.length_eq_zero_iff,
    ← List.length_eq_zero_iff, h.fields.length_eq]

theorem Together.isStatic {sub sub' : String} {g g' : GrantRule}
    (h : Together env sub sub' g.formats g'.formats) : g.isStatic = g'.isStatic := by
  rw [Bool.eq_iff_iff, grantRule_isStatic_iff, grantRule_isStatic_iff, ← List.length_eq_zero_iff,
    ← List.length_eq_zero_iff, h.fields.length_eq]

theorem filter_recased (p : Bool → Bool) (h : RecasedRules env s s' t t') :
    List.Forall₂ (RecasedRole env (fkey s) (fkey s')) (t.roleRules.filter fun r => p r.isStatic)
        (t'.roleRules.filter fun r => p r.isStatic) ∧
      List.Forall₂ (fun g g' => Together env (fkey s) (fkey s') g.formats g'.formats)
        (t.grantRules.filter fun g => p g.isStatic) (t'.grantRules.filter fun g => p g.isStatic) := by
  refine ⟨List.rel_filter (fun r r' hr => ?_) h.roles, List.rel_filter (fun g g' hg => ?_) h.grants⟩
  · show p r.isStatic = true ↔ p r'.isStatic = true
    rw [hr.isStatic]
  · show p g.isStatic = true ↔ p g'.isStatic = true
    rw [hg.isStatic]

/-- Static rules are split off alike. -/
theorem split_recased (hrules : RecasedRules env s s' s s') {P : Step → Step → Prop} (hwhole : P s s')
    (hdynamic : P s.dynamicPart s'.dynamicPart) (hstatic : P s.staticPart s'.staticPart) :
    List.Forall₂ P s.splitStaticItems s'.splitStaticItems := by
  have hroles : (s.roleRules.filter RoleRule.isStatic).length =
      (s'.roleRules.filter RoleRule.isStatic).length := (filter_recased id hrules).1.length_eq
  have hgrants : (s.grantRules.filter GrantRule.isStatic).length =
      (s'.grantRules.filter GrantRule.isStatic).length := (filter_recased id hrules).2.length_eq
  have hroles' := (filter_recased not hrules).1.length_eq
  have hgrants' := (filter_recased not hrules).2.length_eq
  unfold Step.splitStaticItems
  simp only [hroles, hgrants, hroles', hgrants']
  split
  · exact .cons hwhole .nil
  · exact .cons hdynamic (.cons hstatic .nil)

end Step

/-! ## 6. An attribute and an RDN in upper case -/

section Sample
open Sample

theorem toLower_of_letter {c : Char} (h : 'a' ≤ c ∧ c ≤ 'z') : c.toLower = c := by
  have hlow : ¬ c ≤ 'Z' := fun hle => by
    have hbounds := Char.le_trans h.1 hle
    exact absurd hbounds (by decide)
  have hnot : ¬ (c.val ≥ 65 ∧ c.val ≤ 90) := fun hupper => hlow hupper.2
  simp [Char.toLower, hnot]

/-- Letters of the ASCII alphabet have two cases. -/
def folding : Env where
  toLower := fun s => String.ofList (s.toList.map Char.toLower)
  toUpper := fun s => String.ofList (s.toList.map Char.toUpper)
  equalFold := fun a b => a.toList.map Char.toLower == b.toList.map Char.toLower
  toLower_letters := fun s h => by
    have hmap : s.toList.map Char.toLower = s.toList.map id :=
      List.map_congr_left fun c hc => toLower_of_letter (h c hc)
    rw [hmap, List.map_id, String.ofList_toList]
  parseDN := fun dn => if dn = "cn=alice" then some [("cn", "alice")] else none
  knownRDNs := defaultKnownRDNs

theorem folding_folds : CaseFolds folding where
  refl := fun _ => beq_self_eq_true _
  empty := fun s h => by
    have hnil : s.toList.map Char.toLower = [] := (eq_of_beq h).symm
    exact String.ext (List.map_eq_nil_iff.mp hnil)
  symm := fun _ _ h => beq_iff_eq.mpr (eq_of_beq h).symm
  trans := fun _ _ _ h h' => beq_iff_eq.mpr ((eq_of_beq h).trans (eq_of_beq h'))

def namedItem (attr : String) : Item where
  roleRules := [attributeRule attr]

def mailSwap : Recasing folding :=
  .swap folding_folds (a := "mail") (b := "MAIL") (by decide +kernel) (by decide +kernel) (by decide)
    (by decide)

theorem mailSwap_keeps : Keeps mailSwap "" "" where
  sub := by decide +kernel
  dn := fun a => by
    show Equiv.swap "mail" "MAIL" a = "dn" ↔ a = "dn"
    rw [Equiv.swap_apply_eq_iff]
    rfl
  fieldDn := rfl
  known := fun _ => Iff.rfl

def team : Entry := ⟨"cn=team", [("member", ["cn=alice"])]⟩

/-- The members of the team cannot be searched. -/
def teams : Content := fun base _ _ => if base = "cn=alice" then [] else [team]

end Sample

end Ldap2pg.Wanted.Caseless
