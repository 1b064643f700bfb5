import Ldap2pg.Lib.Decode
import Ldap2pg.Normalize
import Ldap2pg.Ldap

/-! # `ldapsearch`, from YAML to `ldap.Search`

The normaliser renames `joins` to `subsearches`; the field that `mapstructure` fills
is tagged `joins`. Decoding is strict, so the renamed key is an invalid one. -/
namespace Ldap2pg.Config
open Lib Ldap Normalize

variable {keys : List String}

/-! ## `CleanFilter` -/

/-- The class `\s` of regular expressions. -/
def isSpace (c : Char) : Bool := c ∈ ['\t', '\n', '\x0c', '\r', ' ']

/-- A backslash followed by an `n` is removed. -/
def dropEscapes : List Char → List Char
  | '\\' :: 'n' :: rest => dropEscapes rest
  | c :: rest => c :: dropEscapes rest
  | [] => []

/-- The replacement of `\s+\(` by a parenthesis. -/
def dropBefore (cs : List Char) : List Char :=
  cs.foldr (fun c rest => if isSpace c && rest.head? == some '(' then rest else c :: rest) []

/-- The replacement of `\)\s+` by a parenthesis. -/
def dropAfter : Bool → List Char → List Char
  | _, [] => []
  | closed, c :: rest =>
    if closed && isSpace c then dropAfter true rest else c :: dropAfter (c == ')') rest

def cleanFilter (filter : String) : String :=
  .ofList (dropAfter false (dropBefore (dropEscapes filter.toList)))

/-! ## The normaliser -/

/-- `NormalizeCommonLdapSearch`. -/
def normalizeCommonLdapSearch (yaml : Yaml) : Except Fault (Dict Yaml) :=
  match yaml.asMap with
  | none => .error (.error ("bad type: " ++ yaml.typeName))
  | some yamlMap =>
    let yamlMap := match yamlMap["filter"]? with
      | some .null => yamlMap.erase "filter"
      | _ => yamlMap
    let search := Dict.copy (((∅ : Dict Yaml).insert "filter" (.str "(objectClass=*)")).insert
      "scope" (.str "sub")) yamlMap
    match search["filter"]?.getD .null with
    | .str filter => .ok (search.insert "filter" (.str (cleanFilter filter)))
    | filter => .error (.assertion filter.typeName "string")

/-- The body of the loop over sub-searches. -/
def normalizeSubsearch (o : Order) (subsearches : Dict Yaml) (ai : String × Nat) :
    Except Fault (Dict Yaml) := do
  let subsearch ← normalizeCommonLdapSearch (subsearches[ai.1]?.getD .null)
  spuriousKeys (o.sub ai.2) subsearch ["filter", "scope"]
  return subsearches.insert ai.1 (.ofMap subsearch)

/-- `NormalizeLdapSearch`. -/
def normalizeLdapSearch (o : Order) (yaml : Yaml) : Except Fault (Dict Yaml) := do
  let search ← normalizeCommonLdapSearch yaml
  let search ← aliasKey search "subsearches" "joins"
  spuriousKeys (o.sub 0) search ["base", "filter", "scope", "subsearches", "on_unexpected_dn"]
  match search["subsearches"]?.bind Yaml.asMap with
  | none => return search
  | some subsearches =>
    let subsearches ← ((o.sub 1).range subsearches.keys).zipIdx.foldlM
      (normalizeSubsearch (o.sub 2)) subsearches
    return search.insert "subsearches" (.ofMap subsearches)

/-! ## The decoder -/

/-- `ParseScope`. -/
def parseScope (s : String) : Except String Scope :=
  if s = "sub" then .ok .sub
  else if s = "base" then .ok .base
  else if s = "one" then .ok .one
  else .error ("bad scope: " ++ s)

/-- The case of `decodeMapHook` for scopes. The `String` of a `reflect.Value` that is
not a string is a description of it. -/
def decodeScope : Decoder Scope := fun _ path y =>
  match parseScope (y.asString.getD ("<" ++ y.typeName ++ " Value>")) with
  | .ok scope => ⟨scope, []⟩
  | .error err => ⟨.base, [.custom path err]⟩

/-- The fields of `Subsearch`, under their names. -/
def subsearchFields (scalars : Decode.Scalars) : List (Decode.Field Subsearch) :=
  [Decode.field "Filter" (Decode.string scalars) fun filter s => { s with filter },
   Decode.field "Scope" decodeScope fun scope s => { s with scope },
   Decode.field "Attributes" (Decode.list (Decode.string scalars)) fun attributes s => { s with attributes }]

def decodeSubsearch (scalars : Decode.Scalars) : Decoder Subsearch :=
  Decode.record ⟨"", .base, []⟩ (subsearchFields scalars)

/-- The fields of `Search`, the last one under its tag. -/
def searchFields (scalars : Decode.Scalars) : List (Decode.Field Search) :=
  [Decode.field "Base" (Decode.string scalars) fun base s => { s with base },
   Decode.field "Scope" decodeScope fun scope s => { s with scope },
   Decode.field "Filter" (Decode.string scalars) fun filter s => { s with filter },
   Decode.field "Attributes" (Decode.list (Decode.string scalars)) fun attributes s => { s with attributes },
   Decode.field "joins" (Decode.dict (decodeSubsearch scalars)) fun subsearches s => { s with subsearches }]

/-- What `DecodeYaml` does with the `ldapsearch` of a rule. -/
def decodeSearch (scalars : Decode.Scalars) : Decoder Search := Decode.record {} (searchFields scalars)

/-! ## Which keys the normaliser leaves -/

section Keys
variable {o : Order} {yaml : Yaml} {m search : Dict Yaml}

theorem mem_normalizeCommonLdapSearch (hm : yaml.asMap = some m)
    (h : normalizeCommonLdapSearch yaml = .ok search) {k : String} :
    k ∈ search ↔ k ∈ m ∨ k ∈ ["filter", "scope"] := by
  unfold normalizeCommonLdapSearch at h
  rw [hm] at h
  simp only at h
  split at h
  case h_2 => cases h
  case h_1 filter _ =>
    cases h
    -- a filter that is removed is one of the defaults
    have hrest : ∀ rest : Dict Yaml, (∀ a : String, a ≠ "filter" → rest[a]? = m[a]?) →
        (k ∈ (Dict.copy (((∅ : Dict Yaml).insert "filter" (.str "(objectClass=*)")).insert "scope"
          (.str "sub")) rest).insert "filter" (.str (cleanFilter filter)) ↔
            k ∈ m ∨ k ∈ ["filter", "scope"]) := by
      intro rest hrest
      rw [Dict.mem_iff, Dict.mem_iff, Dict.get_insert, Dict.get_copy, Dict.get_insert,
        Dict.get_insert]
      by_cases hf : k = "filter"
      · simp [hf]
      · by_cases hs : k = "scope"
        · subst hs
          cases rest["scope"]? <;> simp
        · simp [hf, hs, Ne.symm hf, Ne.symm hs, hrest k hf]
    refine hrest _ fun a ha => ?_
    split
    · rw [Dict.get_erase, if_neg (Ne.symm ha)]
    · rfl

/-- The keys of the result are those of the map and the defaults, with `joins` under its
other name. -/
theorem mem_normalizeLdapSearch (hm : yaml.asMap = some m)
    (h : normalizeLdapSearch o yaml = .ok search) {k : String} :
    k ∈ search ↔ (k ≠ "joins" ∧ (k ∈ m ∨ k ∈ ["filter", "scope"])) ∨
      (k = "subsearches" ∧ "joins" ∈ m) := by
  obtain ⟨common, hcommon, h⟩ := bind_eq_ok.mp h
  obtain ⟨renamed, hrenamed, h⟩ := bind_eq_ok.mp h
  obtain ⟨_, _, h⟩ := bind_eq_ok.mp h
  have hkeys : k ∈ renamed ↔ (k ≠ "joins" ∧ (k ∈ m ∨ k ∈ ["filter", "scope"])) ∨
      (k = "subsearches" ∧ "joins" ∈ m) := by
    rw [mem_aliasKey hrenamed (by decide), mem_normalizeCommonLdapSearch hm hcommon,
      mem_normalizeCommonLdapSearch hm hcommon]
    simp
  rw [← hkeys]
  split at h
  case h_1 => cases h; rfl
  case h_2 subsearches hsub =>
    obtain ⟨out, _, h⟩ := bind_eq_ok.mp h
    cases h
    obtain ⟨v, hv, _⟩ := Option.bind_eq_some_iff.mp hsub
    rw [Dict.mem_iff, Dict.mem_iff, Dict.get_insert]
    by_cases hk : "subsearches" = k
    · subst hk
      simp [hv]
    · simp [hk]

end Keys

/-! ## Whether the two agree -/

/-- The join on an attribute. -/
def joinOn (m : Dict Yaml) (attr : String) : Option (Dict Yaml) :=
  ((m["joins"]?.bind Yaml.asMap).bind (·[attr]?)).bind Yaml.asMap

/-- The map has documented keys only, and so have its joins. -/
structure Documented (m : Dict Yaml) : Prop where
  keys : ∀ k ∈ m, k ∈ ["base", "filter", "scope", "joins"]
  joins : ∀ attr join, joinOn m attr = some join → ∀ k ∈ join, k ∈ ["filter", "scope"]

/-- No key is reported, and each join is decoded with the filter and scope it gives. -/
structure Agrees (m : Dict Yaml) (d : Decoded Search) : Prop where
  valid : ∀ path keys, .invalidKeys path keys ∉ d.errors
  joins : ∀ attr join, joinOn m attr = some join → ∃ sub, d.value.subsearches[attr]? = some sub ∧
    (∀ filter, join["filter"]? = some (.str filter) → sub.filter = cleanFilter filter) ∧
    ∀ s scope, join["scope"]? = some (.str s) → parseScope s = .ok scope → sub.scope = scope

section Valid
variable {scalars : Decode.Scalars}

theorem string_valid {o : Order} {path path' : String} {y : Yaml} :
    .invalidKeys path' keys ∉ (Decode.string scalars o path y).errors :=
  fun h => DecodeError.noConfusion (Decode.scalar_errors h)

theorem decodeScope_valid {o : Order} {path path' : String} {y : Yaml} :
    .invalidKeys path' keys ∉ (decodeScope o path y).errors := by
  intro h
  unfold decodeScope at h
  split at h <;> simp at h

def searchTags : List String := ["Base", "Scope", "Filter", "Attributes", "joins"]

theorem tag_searchFields : (searchFields scalars).map Decode.Field.tag = searchTags := rfl

/-- The fields for the three other keys. -/
theorem tagged_of_keys {search : Dict Yaml} (hkeys : ∀ k ∈ search, k ∈ ["base", "filter", "scope"])
    {k : String} (hk : k ∈ search) : Decode.Tagged (searchFields scalars) search k := by
  have htags : ∀ k ∈ ["base", "filter", "scope"], ∃ tag ∈ searchTags,
      Decode.equalFold k tag = true ∧
        ∀ k' ∈ ["base", "filter", "scope"], Decode.equalFold k' tag = true → k' = k := by
    decide +kernel
  exact Decode.tagged_of_tags (fun _ => id) htags hkeys k hk

theorem valid_of_keys {o : Order} {search : Dict Yaml} {path path' : String}
    (hkeys : ∀ k ∈ search, k ∈ ["base", "filter", "scope"]) :
    .invalidKeys path' keys ∉ (decodeSearch scalars o path (.ofMap search)).errors := by
  intro h
  obtain ⟨f, hf, ⟨k, hk, hfold⟩, o', path'', y, r, h⟩ :=
    Decode.store_of_rejects (Yaml.asMap_ofMap search) (fun k hk => tagged_of_keys hkeys hk) h
  have hothers : ∀ k ∈ ["base", "filter", "scope"], Decode.equalFold k "Attributes" = false ∧
      Decode.equalFold k "joins" = false := by decide +kernel
  have hother := hothers k (hkeys k hk)
  simp only [searchFields, List.mem_cons, List.not_mem_nil, or_false] at hf
  rcases hf with rfl | rfl | rfl | rfl | rfl
  · exact string_valid h
  · exact decodeScope_valid h
  · exact string_valid h
  · exact absurd (hother.1.symm.trans hfold) Bool.false_ne_true
  · exact absurd (hother.2.symm.trans hfold) Bool.false_ne_true

/-- The name that the normaliser gives to `joins` is an invalid key. -/
theorem rejects_joins {o : Order} {yaml : Yaml} {m search : Dict Yaml} (hm : yaml.asMap = some m)
    (hok : normalizeLdapSearch o yaml = .ok search) (hjoins : "joins" ∈ m) (o' : Order)
    (path : String) : ∃ keys, "subsearches" ∈ keys ∧
      .invalidKeys path keys ∈ (decodeSearch scalars o' path (.ofMap search)).errors := by
  have hin : "subsearches" ∈ search := (mem_normalizeLdapSearch hm hok).mpr (.inr ⟨rfl, hjoins⟩)
  have htags : ∀ tag ∈ searchTags, Decode.equalFold "subsearches" tag = false := by decide +kernel
  exact Decode.rejects_of_mem (Yaml.asMap_ofMap search) hin fun f hf =>
    htags f.tag (tag_searchFields ▸ List.mem_map_of_mem hf)

end Valid

/-- **A search is decoded if and only if it has no join.** -/
theorem search_agrees_iff (scalars : Decode.Scalars) {o : Order} {yaml : Yaml} {m search : Dict Yaml}
    (hm : yaml.asMap = some m) (hdoc : Documented m) (hok : normalizeLdapSearch o yaml = .ok search)
    (o' : Order) (path : String) :
    Agrees m (decodeSearch scalars o' path (.ofMap search)) ↔ "joins" ∉ m := by
  refine ⟨fun h hjoins => ?_, fun hjoins => ⟨fun path' keys h => ?_, fun attr join h => ?_⟩⟩
  · obtain ⟨keys, _, hkeys⟩ := rejects_joins hm hok hjoins o' path
    exact h.valid path keys hkeys
  · have hkeys : ∀ k ∈ search, k ∈ ["base", "filter", "scope"] := by
      intro k hk
      rcases (mem_normalizeLdapSearch hm hok).mp hk with ⟨hne, hk | hk⟩ | ⟨_, hk⟩
      · have := hdoc.keys k hk
        simp only [List.mem_cons, List.not_mem_nil, or_false] at this ⊢
        tauto
      · exact List.mem_cons_of_mem _ hk
      · exact absurd hk hjoins
    exact valid_of_keys hkeys h
  · -- there is no join
    rw [joinOn, Dict.not_mem_iff.mp hjoins] at h
    cases h

/-! A search of the documentation, and one with a join. -/
namespace Sample

def people : Yaml := .map [("base", .str "ou=people,dc=acme,dc=tld"), ("scope", .str "sub"),
  ("filter", .str "(& (member=*) (cn=group_*) )")]

def members : Yaml := .map [("base", .str "ou=groups,dc=acme,dc=tld"),
  ("joins", .map [("member", .map [("filter", .str "(mail=*)"), ("scope", .str "base")])])]

end Sample
open Sample

/-- The search without a join is decoded as it is written. -/
theorem people_agrees : ∃ m search, people.asMap = some m ∧
    normalizeLdapSearch Order.sorted people = .ok search ∧
    ∀ scalars o path, Agrees m (decodeSearch scalars o path (.ofMap search)) := by
  obtain ⟨m, hm⟩ : ∃ m, people.asMap = some m := ⟨_, rfl⟩
  have hkeys : ∀ k ∈ m, k ∈ ["base", "scope", "filter"] := by
    intro k hk
    obtain ⟨v, hv⟩ := Dict.mem_iff.mp hk
    exact List.mem_map_of_mem (f := Prod.fst) (Yaml.mem_entries hm hv)
  have hjoins : "joins" ∉ m := fun h => absurd (hkeys "joins" h) (by decide)
  have hdoc : Documented m := by
    refine ⟨fun k hk => ?_, fun attr join h => ?_⟩
    · have hk := hkeys k hk
      simp only [List.mem_cons, List.not_mem_nil, or_false] at hk ⊢
      tauto
    · rw [joinOn, Dict.not_mem_iff.mp hjoins] at h
      cases h
  have hok : (normalizeLdapSearch Order.sorted people).toOption.isSome = true := by decide +kernel
  cases hsearch : normalizeLdapSearch Order.sorted people with
  | error e => rw [hsearch] at hok; cases hok
  | ok search =>
    exact ⟨m, search, hm, rfl, fun scalars o path =>
      (search_agrees_iff scalars hm hdoc hsearch o path).mpr hjoins⟩

/-- A join is accepted by the normaliser and refused by the decoder. -/
theorem members_rejected : ∃ m search, members.asMap = some m ∧ Documented m ∧
    normalizeLdapSearch Order.sorted members = .ok search ∧
    ∀ scalars o path, ∃ keys, "subsearches" ∈ keys ∧
      .invalidKeys path keys ∈ (decodeSearch scalars o path (.ofMap search)).errors := by
  obtain ⟨m, hm⟩ : ∃ m, members.asMap = some m := ⟨_, rfl⟩
  have hdoc : Documented m := by
    refine ⟨fun k hk => ?_, fun attr join h k hk => ?_⟩
    · obtain ⟨v, hv⟩ := Dict.mem_iff.mp hk
      have hk : k ∈ ["base", "joins"] := List.mem_map_of_mem (f := Prod.fst) (Yaml.mem_entries hm hv)
      simp only [List.mem_cons, List.not_mem_nil, or_false] at hk ⊢
      tauto
    · obtain ⟨y, hy, hjoin⟩ := Option.bind_eq_some_iff.mp h
      obtain ⟨joins, hjoins, hy⟩ := Option.bind_eq_some_iff.mp hy
      obtain ⟨j, hj, hjoins⟩ := Option.bind_eq_some_iff.mp hjoins
      obtain ⟨v, hv⟩ := Dict.mem_iff.mp hk
      have hj := Yaml.mem_entries hm hj
      simp only [List.mem_cons, Prod.mk.injEq, List.not_mem_nil, or_false, String.reduceEq,
        false_and, true_and, false_or] at hj
      subst hj
      have hy := Yaml.mem_entries hjoins hy
      simp only [List.mem_cons, Prod.mk.injEq, List.not_mem_nil, or_false] at hy
      rw [hy.2] at hjoin
      exact List.mem_map_of_mem (f := Prod.fst) (Yaml.mem_entries hjoin hv)
  have hin : members.asMap.any (fun m => m.contains "joins") = true := by decide +kernel
  rw [hm] at hin
  have hok : (normalizeLdapSearch Order.sorted members).toOption.isSome = true := by decide +kernel
  cases hsearch : normalizeLdapSearch Order.sorted members with
  | error e => rw [hsearch] at hok; cases hok
  | ok search => exact ⟨m, search, hm, hdoc, rfl, fun _ => rejects_joins hm hsearch hin⟩

end Ldap2pg.Config
