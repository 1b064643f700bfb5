import Ldap2pg.Ldap.Correlated
import Mathlib.Logic.Equiv.Basic

/-! # Names in another letter case

Entries are read by names up to letter case, maps of values are indexed by names as they
are spelled. Formats get the same values under other spellings, as long as names that are
evaluated together stay distinct or equal as they were. -/
namespace Ldap2pg.Ldap.Caseless
open Lib Pyfmt Ldap2pg.Lists Ldap.Correlated

variable {sub : String}

/-- Distinct variants of distinct names, that differ from these in letter case: `attr` is
for what comes before the first dot of a field, `field` for what comes after. -/
structure Recasing (env : Env) where
  attr : String → String
  field : String → String
  attr_inj : Function.Injective attr
  field_inj : Function.Injective field
  attr_fold : ∀ a, env.equalFold a (attr a) = true
  field_fold : ∀ k, env.equalFold k (field k) = true
  attr_lower : ∀ a, env.toLower (attr a) = env.toLower a
  field_lower : ∀ k, env.toLower (field k) = env.toLower k
  attr_dot : ∀ a, '.' ∉ a.toList → '.' ∉ (attr a).toList
  field_cut : ∀ k, cut '.' (field k) =
    (field (cut '.' k).1, field (cut '.' k).2.1, (cut '.' k).2.2)

/-- A field name, part by part. -/
def Recasing.name {env : Env} (R : Recasing env) (e : String) : String :=
  match cut '.' e with
  | (a, _, false) => R.attr a
  | (a, rest, true) => R.attr a ++ "." ++ R.field rest

def Recasing.onField {env : Env} (R : Recasing env) (x : Field) : Field :=
  { x with fieldName := R.name x.fieldName }

/-- The fields of a format are replaced. The text that the format was read from is left
open, unless there is no field. -/
structure Recasing.Recases {env : Env} (R : Recasing env) (f f' : Format) : Prop where
  sections : f'.sections = f.sections.map (Section.mapField R.onField)
  static : f.isStatic = true → f' = f

/-- Two variants of a name are exchanged, all other names are kept. -/
def Recasing.swap {env : Env} (hfold : CaseFolds env) {a b : String} (h : env.equalFold a b = true)
    (hlower : env.toLower a = env.toLower b) (ha : '.' ∉ a.toList) (hb : '.' ∉ b.toList) :
    Recasing env where
  attr := Equiv.swap a b
  field := id
  attr_inj := (Equiv.swap a b).injective
  field_inj := Function.injective_id
  attr_fold := fun x => by
    rw [Equiv.swap_apply_def]
    split
    case isTrue hx => exact hx ▸ h
    case isFalse =>
      split
      case isTrue hx => exact hx ▸ hfold.symm a b h
      case isFalse => exact hfold.refl x
  field_fold := hfold.refl
  attr_lower := fun x => by
    rw [Equiv.swap_apply_def]
    split
    case isTrue hx => exact hx ▸ hlower.symm
    case isFalse =>
      split
      case isTrue hx => exact hx ▸ hlower
      case isFalse => rfl
  field_lower := fun _ => rfl
  attr_dot := fun x hx => by
    rw [Equiv.swap_apply_def]
    split
    · exact hb
    · split
      · exact ha
      · exact hx
  field_cut := fun _ => rfl

section Names
variable {env : Env} (R : Recasing env)

theorem name_plain {e : String} (h : '.' ∉ e.toList) : R.name e = R.attr e := by
  rw [Recasing.name, cut_of_not_mem h]

theorem name_dotted {a : String} (h : '.' ∉ a.toList) (rest : String) :
    R.name (a ++ "." ++ rest) = R.attr a ++ "." ++ R.field rest := by
  rw [Recasing.name, cut_append_dot h]

theorem cut_name_dotted {a : String} (h : '.' ∉ a.toList) (rest : String) :
    cut '.' (R.name (a ++ "." ++ rest)) = (R.attr a, R.field rest, true) := by
  rw [name_dotted R h, cut_append_dot (R.attr_dot a h)]

theorem cut_name_plain {e : String} (h : '.' ∉ e.toList) :
    cut '.' (R.name e) = (R.attr e, "", false) := by
  rw [name_plain R h, cut_of_not_mem (R.attr_dot e h)]

theorem root_name (e : String) : root (R.name e) = R.attr (root e) := by
  rcases cut_cases e with ⟨h, hcut⟩ | ⟨a, rest, h, rfl, hcut⟩
  · rw [root, cut_name_plain R h, root, hcut]
  · rw [root, cut_name_dotted R h, root, hcut]

theorem name_inj : Function.Injective R.name := by
  intro e e' heq
  have hcut := congrArg (cut '.') heq
  rcases cut_cases e with ⟨h, _⟩ | ⟨a, rest, h, rfl, _⟩ <;>
    rcases cut_cases e' with ⟨h', _⟩ | ⟨a', rest', h', rfl, _⟩
  · rw [name_plain R h, name_plain R h'] at heq
    exact R.attr_inj heq
  · rw [cut_name_plain R h, cut_name_dotted R h'] at hcut
    cases (congrArg (·.2.2) hcut)
  · rw [cut_name_dotted R h, cut_name_plain R h'] at hcut
    cases (congrArg (·.2.2) hcut)
  · rw [cut_name_dotted R h, cut_name_dotted R h'] at hcut
    obtain ⟨ha, hrest⟩ := Prod.mk.inj hcut
    rw [R.attr_inj ha, R.field_inj (Prod.mk.inj hrest).1]

theorem refersTo_name (sub e : String) : refersTo (R.attr sub) (R.name e) = refersTo sub e := by
  have hroot : (root (R.name e) == R.attr sub) = (root e == sub) := by
    rw [root_name, Bool.eq_iff_iff, beq_iff_eq, beq_iff_eq, R.attr_inj.eq_iff]
  unfold refersTo
  rw [hroot]
  rcases cut_cases e with ⟨h, hcut⟩ | ⟨a, rest, h, rfl, hcut⟩
  · rw [cut_name_plain R h, hcut]
  · rw [cut_name_dotted R h, hcut]

/-- Field names that are empty stay so, the others do not become so. -/
theorem attr_empty (hfold : CaseFolds env) {a : String} : R.attr a = "" ↔ a = "" := by
  constructor
  · intro h
    exact hfold.empty a (hfold.symm a "" (h ▸ R.attr_fold a))
  · rintro rfl
    exact hfold.empty _ (R.attr_fold "")

theorem field_empty (hfold : CaseFolds env) {k : String} (h : R.field k = "") : k = "" :=
  hfold.empty k (hfold.symm k "" (h ▸ R.field_fold k))

end Names

/-! ## Lists of names -/

section Lists
variable {env : Env} (R : Recasing env)

theorem fields_recased {fmts fmts' : List Format} (h : List.Forall₂ R.Recases fmts fmts') :
    fmts'.flatMap Format.fields = (fmts.flatMap Format.fields).map R.onField := by
  induction h with
  | nil => rfl
  | cons h _ ih =>
    rw [List.flatMap_cons, List.flatMap_cons, List.map_append, ih]
    congr 1
    rw [← mapFields_fields]
    exact congrArg (List.filterMap Section.field?) h.sections

theorem expressionsOf_recased {fmts fmts' : List Format} (h : List.Forall₂ R.Recases fmts fmts') :
    expressionsOf fmts' = (expressionsOf fmts).map R.name := by
  rw [expressionsOf, fields_recased R h, List.map_map, expressionsOf,
    ← List.dedup_map_of_injective (name_inj R), List.map_map]
  rfl

theorem attributesOf_name (expressions : List String) :
    attributesOf (expressions.map R.name) = (attributesOf expressions).map R.attr := by
  rw [attributesOf, attributesOf, ← List.dedup_map_of_injective R.attr_inj, List.map_map, List.map_map]
  exact congrArg List.dedup (List.map_congr_left fun e _ => root_name R e)

theorem attributesOf_field (expressions : List String) :
    attributesOf (expressions.map R.field) = (attributesOf expressions).map R.field := by
  rw [attributesOf, attributesOf, ← List.dedup_map_of_injective R.field_inj, List.map_map, List.map_map]
  exact congrArg List.dedup (List.map_congr_left fun k _ => congrArg Prod.fst (R.field_cut k))

/-- What comes after the sub-search attribute and a dot. -/
theorem subExpressions_eq (hdot : '.' ∉ sub.toList) (expressions : List String) :
    subExpressions sub expressions = expressions.filterMap fun e =>
      if refersTo sub e then some (cut '.' e).2.1 else none := by
  refine List.filterMap_congr fun e _ => ?_
  have hmem : ∀ rest, rest ∈ subExpressions sub [e] ↔ sub ++ "." ++ rest = e := fun rest => by
    rw [mem_subExpressions_iff, List.mem_singleton]
  cases hrefers : refersTo sub e with
  | true =>
    obtain ⟨rest, _, rfl⟩ := exists_rest hrefers
    obtain ⟨e, he, hrest⟩ := List.mem_filterMap.mp ((hmem rest).mpr rfl)
    cases List.mem_singleton.mp he
    rw [cut_append_dot hdot]
    exact hrest
  | false =>
    rw [if_neg]
    · simp
    · intro hpre
      obtain ⟨t, ht⟩ := List.isPrefixOf_iff_prefix.mp hpre
      have he : e = sub ++ "." ++ String.ofList t := by
        rw [String.ext_iff, ← ht]
        simp [String.toList_append]
      rw [he, refersTo, cut_append_dot hdot, root_append_dot hdot] at hrefers
      simp at hrefers

theorem subExpressions_name (hdot : '.' ∉ sub.toList) (expressions : List String) :
    subExpressions (R.attr sub) (expressions.map R.name) =
      (subExpressions sub expressions).map R.field := by
  rw [subExpressions_eq hdot, subExpressions_eq (R.attr_dot sub hdot), List.filterMap_map,
    List.map_filterMap]
  refine List.filterMap_congr fun e _ => ?_
  simp only [Function.comp_apply, refersTo_name]
  cases hrefers : refersTo sub e with
  | false => simp
  | true =>
    obtain ⟨rest, _, rfl⟩ := exists_rest hrefers
    simp [cut_name_dotted R hdot, cut_append_dot hdot]

end Lists

/-! ## Values -/

section Values
variable {env : Env} (hfold : CaseFolds env)
include hfold

theorem equalFold_congr {a b : String} (h : env.equalFold a b = true) (x : String) :
    env.equalFold a x = env.equalFold b x := by
  rw [Bool.eq_iff_iff]
  exact ⟨hfold.trans b a x (hfold.symm a b h), hfold.trans a b x h⟩

theorem values_fold {a b : String} (h : env.equalFold a b = true) (entry : Entry) :
    entry.values env a = entry.values env b := by
  simp only [Entry.values, equalFold_congr hfold h]

theorem resolveFirstRDN_fold {a b : String} (h : env.equalFold a b = true) (dn : String) :
    resolveFirstRDN env dn a = resolveFirstRDN env dn b := by
  simp only [resolveFirstRDN, equalFold_congr hfold h]

theorem entryValues_fold {a b : String} (h : env.equalFold a b = true)
    (hlower : env.toLower b = env.toLower a) (entry : Entry) :
    entryValues env entry b = entryValues env entry a := by
  simp only [entryValues, hlower, values_fold hfold h, resolveFirstRDN_fold hfold h]

variable (R : Recasing env)

/-- An expression on a sub-entry, from values under other names. -/
theorem valueIn_field {values values' : Values}
    (h : ∀ k : String, values'[R.field k]? = values[k]?) (k : String) :
    valueIn env values' (R.field k) = valueIn env values k := by
  unfold valueIn
  rw [R.field_cut]
  rcases cut '.' k with ⟨a, field, found⟩
  simp only [h, ← resolveFirstRDN_fold hfold (R.field_fold field)]

theorem valueIn_name {values values' : Values}
    (h : ∀ a : String, values'[R.attr a]? = values[a]?) (e : String) :
    valueIn env values' (R.name e) = valueIn env values e := by
  rcases cut_cases e with ⟨hdot, hcut⟩ | ⟨a, rest, hdot, rfl, hcut⟩
  · rw [valueIn, cut_name_plain R hdot, valueIn, hcut]
    simp only [h, if_true]
  · rw [valueIn, cut_name_dotted R hdot, valueIn, hcut]
    simp only [h, ← resolveFirstRDN_fold hfold (R.field_fold rest)]

theorem valueOf_name {values values' subValues subValues' : Values}
    (h : ∀ a : String, values'[R.attr a]? = values[a]?)
    (hsub : ∀ k : String, subValues'[R.field k]? = subValues[k]?) (e : String) :
    valueOf env (R.attr sub) values' subValues' (R.name e) = valueOf env sub values subValues e := by
  have hin := valueIn_name hfold R h e
  rcases cut_cases e with ⟨hdot, hcut⟩ | ⟨a, rest, hdot, rfl, hcut⟩
  · rw [valueOf, cut_name_plain R hdot, valueOf, hcut]
    simpa using hin
  · rw [valueOf, cut_name_dotted R hdot, valueOf, hcut]
    simp only [true_and, R.attr_inj.eq_iff, valueIn_field hfold R hsub, hin]

/-- The same choices in the sub-entries, under other names. -/
theorem subChoices_recased {r r' : Result} (hkey : r'.subsearchAttribute = R.attr r.subsearchAttribute)
    (hentries : r'.subsearchEntries = r.subsearchEntries) (expressions : List String) :
    List.Forall₂ (fun v v' : Values => ∀ k : String, v'[R.field k]? = v[k]?)
      (subChoices env r expressions) (subChoices env r' (expressions.map R.name)) := by
  have hany : (expressions.map R.name).any (refersTo r'.subsearchAttribute) =
      expressions.any (refersTo r.subsearchAttribute) := by
    rw [hkey, List.any_map]
    exact congrArg expressions.any (funext fun e => refersTo_name R _ e)
  unfold subChoices
  rw [hany, hkey, hentries]
  split
  case isTrue hrefers =>
    obtain ⟨e, _, he⟩ := List.any_eq_true.mp hrefers
    obtain ⟨_, hdot, _⟩ := exists_rest he
    rw [subExpressions_name R hdot, attributesOf_field]
    have hsame : List.Forall₂ Eq r.subsearchEntries r.subsearchEntries :=
      List.forall₂_same.mpr fun _ _ => rfl
    refine List.rel_flatMap hsame fun se se' hse => ?_
    subst hse
    exact choices_rekey R.field_inj (fun k _ => entryValues_fold hfold (R.field_fold k)
      (R.field_lower k) se) fun k => by simp
  case isFalse => exact .cons (fun k => by simp) .nil

/-- **The same values, under other names.** -/
theorem correlated_recased {r r' : Result} (hkey : r'.subsearchAttribute = R.attr r.subsearchAttribute)
    (hentries : r'.subsearchEntries = r.subsearchEntries) (entry : Entry) {fmts fmts' : List Format}
    (h : List.Forall₂ R.Recases fmts fmts') :
    List.Forall₂ (fun v v' : Values => ∀ e ∈ expressionsOf fmts, v'[R.name e]? = v[e]?)
      (correlated env r entry fmts) (correlated env r' entry fmts') := by
  have hothers : ((attributesOf (expressionsOf fmts)).map R.attr).filter (· ≠ r'.subsearchAttribute) =
      ((attributesOf (expressionsOf fmts)).filter (· ≠ r.subsearchAttribute)).map R.attr := by
    rw [List.filter_map, hkey]
    congr 1
    exact List.filter_congr fun a _ => by simp [R.attr_inj.eq_iff]
  unfold correlated
  simp only [expressionsOf_recased R h, attributesOf_name, hothers]
  have hentry : ∀ keys : List String, List.Forall₂
      (fun v v' : Values => ∀ a : String, v'[R.attr a]? = v[a]?)
      (choices (entryValues env entry) ∅ keys) (choices (entryValues env entry) ∅ (keys.map R.attr)) :=
    fun keys => choices_rekey R.attr_inj (fun a _ => entryValues_fold hfold (R.attr_fold a)
      (R.attr_lower a) entry) fun a => by simp
  refine List.rel_flatMap (hentry _) fun v v' hv => ?_
  refine List.rel_map (fun sv sv' hsv e he => ?_)
    (subChoices_recased hfold R hkey hentries (expressionsOf fmts))
  rw [get_valuesOf, get_valuesOf, if_pos he, if_pos (List.mem_map_of_mem he), hkey,
    valueOf_name hfold R hv hsv]

/-- Formats that refer to the sub-search attribute properly still do. -/
theorem proper_recased (hdot : '.' ∉ sub.toList) {expressions : List String}
    (h : Proper env sub expressions) : Proper env (R.attr sub) (expressions.map R.name) := by
  refine ⟨⟨fun e' he' hsub => ?_, fun ⟨e', he', hroot⟩ => ?_⟩, fun e' he' hroot => ?_,
    fun k' hk' hroot => ?_⟩
  · obtain ⟨e, he, rfl⟩ := List.mem_map.mp he'
    rw [refersTo_name]
    rw [root_name, ← equalFold_congr hfold (R.attr_fold sub)] at hsub
    exact h.spelled e he (hfold.trans _ _ _ hsub (hfold.symm _ _ (R.attr_fold _)))
  · obtain ⟨e, he, rfl⟩ := List.mem_map.mp he'
    rw [root_name, R.attr_inj.eq_iff] at hroot
    rw [R.attr_lower]
    exact h.held ⟨e, he, hroot⟩
  · obtain ⟨e, he, rfl⟩ := List.mem_map.mp he'
    rw [root_name, attr_empty R hfold] at hroot
    exact h.named e he hroot
  · rw [subExpressions_name R hdot] at hk'
    obtain ⟨k, hk, rfl⟩ := List.mem_map.mp hk'
    rw [root, R.field_cut] at hroot
    exact h.subNamed k hk (field_empty R hfold hroot)

omit hfold in
/-- A format reads the same text from values under other names. -/
theorem render_recased {f f' : Format} (h : R.Recases f f') {values values' : Values}
    (hvalues : ∀ x ∈ f.fields, values'[R.name x.fieldName]? = values[x.fieldName]?) :
    f'.render env.toStrings values' = f.render env.toStrings values := by
  have hsection : ∀ s ∈ f.sections,
      (s.mapField R.onField).render env.toStrings values' = s.render env.toStrings values := by
    intro s hs
    cases s with
    | literal text => rfl
    | field x =>
      have hx : x ∈ f.fields := List.mem_filterMap.mpr ⟨.field x, hs, rfl⟩
      have hvalue : values'[(R.onField x).fieldName]? = values[x.fieldName]? := hvalues x hx
      simp only [Section.mapField, Section.render, Field.render, hvalue]
      rfl
  unfold Format.render
  rw [h.sections, List.foldl_map]
  exact List.foldl_ext _ _ _ fun b s hs => by rw [hsection s hs]

/-- **Recased formats get the same values**, whatever the order of the maps: what is made of
each comes out the same, up to order. -/
theorem generateValues_recased {r r' : Result} (hkey : r'.subsearchAttribute = R.attr r.subsearchAttribute)
    (hentries : r'.subsearchEntries = r.subsearchEntries) (hdot : '.' ∉ r.subsearchAttribute.toList)
    {fmts fmts' : List Format} (h : List.Forall₂ R.Recases fmts fmts')
    (hproper : Proper env r.subsearchAttribute (expressionsOf fmts)) (entry : Entry) (o o' : Order)
    {γ : Type} {g g' : Values → γ}
    (hg : ∀ v v' : Values, (∀ e ∈ expressionsOf fmts, v'[R.name e]? = v[e]?) → g v = g' v') :
    ((r.generateValues env o entry fmts).map g).Perm ((r'.generateValues env o' entry fmts').map g') := by
  have hexprs := expressionsOf_recased R h
  by_cases hfield : ∃ f ∈ fmts, f.isStatic = false
  · have hfield' : ∃ f ∈ fmts', f.isStatic = false := by
      rw [← expressionsOf_ne_nil] at hfield ⊢
      rw [hexprs]
      simpa using hfield
    have hproper' : Proper env r'.subsearchAttribute (expressionsOf fmts') := by
      rw [hexprs, hkey]
      exact proper_recased hfold R hdot hproper
    have hvalues : (r.generateValues env o entry fmts).Perm (correlated env r entry fmts) :=
      (generateValues_correlated hfold.toFolds hproper hfield o).1
    have hvalues' : (r'.generateValues env o' entry fmts').Perm (correlated env r' entry fmts') :=
      (generateValues_correlated hfold.toFolds hproper' hfield' o').1
    have hsame : (correlated env r entry fmts).map g = (correlated env r' entry fmts').map g' := by
      rw [← List.forall₂_eq_eq_eq, List.forall₂_map_left_iff, List.forall₂_map_right_iff]
      exact (correlated_recased hfold R hkey hentries entry h).imp fun v v' hv => hg v v' hv
    exact (hvalues.map g).trans (.trans (.of_eq hsame) (hvalues'.map g').symm)
  · have hnone : expressionsOf fmts = [] := by
      by_contra hne
      exact hfield (expressionsOf_ne_nil.mp hne)
    have hstatic : ∀ f ∈ fmts, f.isStatic = true := fun f hf => by
      by_contra hdynamic
      exact hfield ⟨f, hf, by simpa using hdynamic⟩
    have hstatic' : ∀ f ∈ fmts', f.isStatic = true := fun f hf => by
      by_contra hdynamic
      refine expressionsOf_ne_nil.mpr ⟨f, hf, by simpa using hdynamic⟩ ?_
      rw [hexprs, hnone, List.map_nil]
    rw [generateValues_static hstatic, generateValues_static hstatic', List.map_nil, List.map_nil]

end Values

end Ldap2pg.Ldap.Caseless
