import Ldap2pg.Config.OptionText

/-! # Spellings of a role rule

The same rule may be written in several ways: with singular or plural keys, with one
value or a list of one, with a name alone or in a map. -/
namespace Ldap2pg.Config
open Lib Normalize Pyfmt Roles

variable {sprint : Yaml → String} {scalars : Decode.Scalars} {o : Order} {path : String}
  {m : Dict Yaml}

variable {rule : Dict Value} {n k : String} {options : Yaml}

section Fields
variable {α ρ : Type} {decode : Decoder α} {put : α → ρ → ρ} {tag : String} {st : Decoded ρ}
  {i : Nat}

/-- A field reads the only key that is its tag in some letter case. -/
theorem storeField_key {key : String} {y : Yaml} (hfold : Decode.equalFold key tag = true)
    (honly : ∀ k ∈ m, Decode.equalFold k tag = true → k = key) (h : m[key]? = some y)
    (hy : y ≠ .null) :
    Decode.storeField o path m st (Decode.field tag decode put, i) =
      ⟨put (decode ((o.sub 1).sub i) (path ++ "." ++ tag) y).value st.value,
        st.errors ++ (decode ((o.sub 1).sub i) (path ++ "." ++ tag) y).errors⟩ := by
  unfold Decode.storeField
  rw [show (Decode.field tag decode put, i).1.tag = tag from rfl, Decode.matchKey_bind hfold honly, h]
  cases y with
  | null => exact absurd rfl hy
  | _ => rfl

/-- A field without a key is left as it is. -/
theorem storeField_none (h : ∀ k ∈ m, Decode.equalFold k tag = false) :
    Decode.storeField o path m st (Decode.field tag decode put, i) = st := by
  have hkey : m[tag]? = none := Dict.not_mem_iff.mp fun ht =>
    Bool.false_ne_true ((h tag ht).symm.trans (Decode.equalFold_self tag))
  unfold Decode.storeField
  rw [show (Decode.field tag decode put, i).1.tag = tag from rfl,
    Decode.matchKey_bind (Decode.equalFold_self tag) fun k hk hf =>
      absurd ((h k hk).symm.trans hf) Bool.false_ne_true, hkey]

end Fields

/-! ## Names of keys -/

section Keys
variable {key other : String}

theorem aliasKey_rename (hkey : key ∉ m) (hother : other ∉ m) (hne : key ≠ other) (v : Yaml) :
    aliasKey (m.insert other v) key other = .ok (m.insert key v) := by
  have hin : key ∉ m.insert other v := by
    rw [Std.ExtTreeMap.mem_insert, not_or]
    exact ⟨by simpa using Ne.symm hne, hkey⟩
  have herase : (m.insert other v).erase other = m := by
    refine Dict.ext_get fun k => ?_
    rw [Dict.get_erase, Dict.get_insert]
    by_cases hk : other = k
    · subst hk
      simp [Dict.not_mem_iff.mp hother]
    · simp [hk]
  rw [aliasKey, Dict.get_insert, if_pos rfl]
  show (if key ∈ m.insert other v then _ else _) = _
  rw [if_neg hin, herase]

theorem aliasKey_absent (hother : other ∉ m) : aliasKey m key other = .ok m := by
  rw [aliasKey, Dict.not_mem_iff.mp hother]

theorem aliasKey_insert (hk : k ≠ key) (hk' : k ≠ other) (v : Yaml) :
    aliasKey (m.insert k v) key other = (aliasKey m key other).map (·.insert k v) := by
  have hin : key ∈ m.insert k v ↔ key ∈ m := by simp [hk]
  have hswap : ∀ value, ((m.insert k v).erase other).insert key value =
      ((m.erase other).insert key value).insert k v := by
    intro value
    refine Dict.ext_get fun a => ?_
    simp only [Dict.get_insert, Dict.get_erase]
    by_cases ha : k = a
    · subst ha
      simp [Ne.symm hk, Ne.symm hk']
    · simp [ha]
  rw [aliasKey, aliasKey, Dict.get_insert, if_neg hk']
  cases m[other]? with
  | none => rfl
  | some value =>
    by_cases hkey : key ∈ m
    · simp only [hin, hkey, if_true]
      rfl
    · simp only [hin, hkey, if_false, hswap]
      rfl

end Keys

/-! ## A name alone -/

section Plain

/-- The map of a rule that has a name only, with some options. -/
def plainRule (n : String) (options : Yaml) : Dict Yaml :=
  (((∅ : Dict Yaml).insert "name" (.str n)).insert "comment" (.str "Managed by ldap2pg")).insert
    "options" options |>.insert "parents" (.list [])

theorem mem_plainRule (h : k ∈ plainRule n options) :
    k ∈ ["name", "comment", "options", "parents"] := by
  simp only [plainRule, Std.ExtTreeMap.mem_insert, Std.ExtTreeMap.not_mem_empty, or_false,
    compare_eq_iff_eq] at h
  rcases h with rfl | rfl | rfl | rfl <;> decide

/-- What is decoded of it. -/
def plainDecoded (n path : String) (options : Options) : Decoded RoleRule where
  value :=
    { name := (decodeFormat .sorted (path ++ "." ++ "Name") (.str n)).value
      options := options
      comment := (decodeFormat .sorted (path ++ "." ++ "Comment") (.str "Managed by ldap2pg")).value }
  errors := (decodeFormat .sorted (path ++ "." ++ "Name") (.str n)).errors

theorem managed_errors (o : Order) (path : String) :
    (decodeFormat o path (.str "Managed by ldap2pg")).errors = [] := by
  have hparse : Parse.parse "Managed by ldap2pg" = .ok (⟨"Managed by ldap2pg",
      [.literal "Managed by ldap2pg"]⟩, none) := by decide +kernel
  rw [decodeFormat, Yaml.asString, Option.getD_some, hparse]

theorem decodeRole_plain {opts : Options} (hne : options ≠ .null)
    (h : ∀ o path, decodeOptions scalars o path options = ⟨opts, []⟩) :
    decodeRole scalars o path (.ofMap (plainRule n options)) = plainDecoded n path opts := by
  have honly : ∀ {tag key : String}, (∀ k ∈ ["name", "comment", "options", "parents"],
      Decode.equalFold k tag = true → k = key) →
      ∀ k ∈ plainRule n options, Decode.equalFold k tag = true → k = key :=
    fun hall k hk => hall k (mem_plainRule hk)
  have hnone : ∀ {tag : String}, (∀ k ∈ ["name", "comment", "options", "parents"],
      Decode.equalFold k tag = false) → ∀ k ∈ plainRule n options, Decode.equalFold k tag = false :=
    fun hall k hk => hall k (mem_plainRule hk)
  have htags : ∀ k ∈ ["name", "comment", "options", "parents"], ∃ tag ∈ ["Name", "Options",
      "Comment", "Parents"], Decode.equalFold k tag = true ∧
        ∀ k' ∈ ["name", "comment", "options", "parents"], Decode.equalFold k' tag = true → k' = k := by
    decide +kernel
  have hname : (plainRule n options)["name"]? = some (.str n) := rfl
  have hcomment : (plainRule n options)["comment"]? = some (.str "Managed by ldap2pg") := rfl
  have hoptions : (plainRule n options)["options"]? = some options := rfl
  have hparents : (plainRule n options)["parents"]? = some (.list []) := rfl
  have hout : (roleFields scalars).zipIdx.foldl (Decode.storeField o path (plainRule n options))
      ⟨{}, []⟩ = plainDecoded n path opts := by
    have hfold : Decode.equalFold "name" "Name" = true ∧ Decode.equalFold "options" "Options" = true ∧
        Decode.equalFold "comment" "Comment" = true ∧
        Decode.equalFold "parents" "Parents" = true := by decide +kernel
    have hconfig : ∀ k ∈ plainRule n options, Decode.equalFold k "Config" = false :=
      hnone (by decide +kernel)
    have hbefore : ∀ k ∈ plainRule n options, Decode.equalFold k "before_create" = false :=
      hnone (by decide +kernel)
    have hafter : ∀ k ∈ plainRule n options, Decode.equalFold k "after_create" = false :=
      hnone (by decide +kernel)
    simp only [roleFields, List.zipIdx_cons, List.zipIdx_nil, List.foldl_cons, List.foldl_nil]
    rw [storeField_key hfold.1 (honly (by decide +kernel)) hname Yaml.noConfusion,
      storeField_key hfold.2.1 (honly (by decide +kernel)) hoptions hne, h,
      storeField_key hfold.2.2.1 (honly (by decide +kernel)) hcomment Yaml.noConfusion,
      storeField_key hfold.2.2.2 (honly (by decide +kernel)) hparents Yaml.noConfusion,
      storeField_none hconfig, storeField_none hbefore, storeField_none hafter]
    have hlist : ∀ o path, Decode.list decodeMembership o path (.list []) = ⟨[], []⟩ := fun _ _ => rfl
    simp only [List.nil_append, List.append_nil, managed_errors, hlist]
    rfl
  exact Decode.record_of_tagged (Yaml.asMap_ofMap _) (Decode.tagged_of_tags
    (fun _ => List.mem_of_mem_take (i := 4)) htags fun k => mem_plainRule) hout

/-- A normalised rule that has one name and nothing but the defaults and some options. -/
structure Plain (rule : Dict Value) (n : String) (options : Yaml) : Prop where
  known : ∀ k ∈ rule, k ∈ ["names", "comment", "parents", "options"]
  names : rule["names"]? = some (.strings [n])
  comment : rule["comment"]?.map Value.yaml = some (.str "Managed by ldap2pg")
  parents : rule["parents"]?.map Value.yaml = some (.list [])
  options : rule["options"]?.map Value.yaml = some options

theorem plainKeys : ∀ k ∈ ["name", "comment", "options", "parents"],
    k ∈ ["name", "names", "comment", "parents", "options"] := by decide

theorem Plain.duplicate (h : Plain rule n options) :
    ∃ single, duplicateRoleRules rule = .ok [single] ∧ yamlOf single = .ofMap (plainRule n options) := by
  refine ⟨Dict.copy ((∅ : Dict Value).insert "name" (.any (.str n))) (rule.erase "names"), ?_, ?_⟩
  · rw [duplicateRoleRules, h.names]
    rfl
  · refine congrArg Yaml.ofMap (Dict.ext_get fun k => ?_)
    rw [Std.ExtTreeMap.getElem?_map, Dict.get_copy, Dict.get_erase]
    by_cases hk : k ∈ ["name", "names", "comment", "parents", "options"]
    · simp only [List.mem_cons, List.not_mem_nil, or_false] at hk
      rcases hk with rfl | rfl | rfl | rfl | rfl
      · have hname : rule["name"]? = none := Dict.not_mem_iff.mp fun hin =>
          absurd (h.known _ hin) (by simp)
        rw [hname]
        rfl
      · rfl
      · rw [if_neg (by simp), Option.map_or, h.comment]
        rfl
      · rw [if_neg (by simp), Option.map_or, h.parents]
        rfl
      · rw [if_neg (by simp), Option.map_or, h.options]
        rfl
    · have hrule : rule[k]? = none := Dict.not_mem_iff.mp fun hin =>
        hk (List.mem_cons_of_mem _ (h.known k hin))
      have hplain : (plainRule n options)[k]? = none := Dict.not_mem_iff.mp fun hin =>
        hk (plainKeys k (mem_plainRule hin))
      have hname : k ≠ "name" := fun he => hk (he ▸ List.mem_cons_self)
      rw [hrule, hplain, Dict.get_insert, if_neg (Ne.symm hname)]
      split <;> rfl

theorem Plain.load {yaml : Yaml} {opts : Options}
    (hrule : normalizeRoleRule sprint (o.sub 0) yaml = .ok rule) (h : Plain rule n options)
    (hne : options ≠ .null) (hopts : ∀ o path, decodeOptions scalars o path options = ⟨opts, []⟩) :
    loadRole sprint scalars o path yaml = .ok [plainDecoded n path opts] := by
  obtain ⟨single, hsingle, hyaml⟩ := h.duplicate
  rw [loadRole, hrule, ok_bind, hsingle, ok_bind, List.zipIdx_singleton, List.map_singleton, hyaml,
    decodeRole_plain hne hopts]
  rfl

theorem mem_defaultRule (h : k ∈ defaultRule) : k ∈ ["names", "comment", "parents", "options"] := by
  simp only [defaultRule, Std.ExtTreeMap.mem_insert, Std.ExtTreeMap.not_mem_empty, or_false,
    compare_eq_iff_eq] at h
  rcases h with rfl | rfl | rfl <;> decide

theorem plain_known (h : k ∈ ["names", "comment", "parents", "options"]) : k ∈ ruleKeys :=
  List.mem_of_mem_take (i := 4) h

theorem normalizeRoleRule_of_map {yaml : Yaml} {m : Dict Yaml} (hm : yaml.asMap = some m) :
    normalizeRoleRule sprint o yaml = (do
      let rule ← normalizeRoleMap sprint (o.sub 0) m
      spuriousKeys (o.sub 1) (rule.map fun _ v => v.yaml) ruleKeys
      return rule) := by
  cases yaml with
  | map entries => cases hm; rfl
  | _ => cases hm

/-- A map is normalised when it is completed and its keys are known. -/
theorem normalizeRoleRule_eq_ok {yaml : Yaml} {m : Dict Yaml} (hm : yaml.asMap = some m) :
    normalizeRoleRule sprint o yaml = .ok rule ↔
      normalizeRoleMap sprint (o.sub 0) m = .ok rule ∧ ∀ k ∈ rule, k ∈ ruleKeys := by
  rw [normalizeRoleRule_of_map hm, bind_eq_ok]
  simp only [checked_eq_ok, Std.ExtTreeMap.mem_map]
  exact ⟨fun ⟨_, h, hkeys, he⟩ => he ▸ ⟨h, hkeys⟩, fun ⟨h, hkeys⟩ => ⟨rule, h, hkeys, rfl⟩⟩

theorem decodeOptions_empty (o : Order) (path : String) :
    decodeOptions scalars o path (.map []) = ⟨{}, []⟩ := by
  have hnone : ∀ {tag : String}, ∀ k ∈ (∅ : Dict Yaml), Decode.equalFold k tag = false :=
    fun k hk => absurd hk Std.ExtTreeMap.not_mem_empty
  have hout : (optionsFields scalars).zipIdx.foldl (Decode.storeField o path ∅) ⟨{}, []⟩ =
      ⟨{}, []⟩ := by
    simp only [optionsFields, List.zipIdx_cons, List.zipIdx_nil, List.foldl_cons, List.foldl_nil,
      storeField_none hnone]
  have hmap : (Yaml.map []).asMap = some ∅ := rfl
  rw [decodeOptions, Decode.record_of_map hmap, hout]
  rfl

theorem normalizeRoleOptions_empty (o : Order) :
    normalizeRoleOptions o (.map []) = .ok defaultOptionMap := by
  have hcopy : Dict.copy defaultOptionMap ((∅ : Dict Yaml).map fun _ v => boolean v) =
      defaultOptionMap := by
    refine Dict.ext_get fun k => ?_
    rw [Dict.get_copy, Std.ExtTreeMap.getElem?_map, Dict.get_empty]
    rfl
  have hknown : spuriousKeys o defaultOptionMap (defaultOptions.map Prod.fst) = .ok () :=
    spuriousKeys_ok_iff.mpr fun k hk => mem_defaultOptionMap hk
  show (spuriousKeys o (Dict.copy defaultOptionMap ((∅ : Dict Yaml).map fun _ v => boolean v)) _ >>=
    fun _ => .ok (Dict.copy defaultOptionMap ((∅ : Dict Yaml).map fun _ v => boolean v))) = _
  rw [hcopy, hknown]
  rfl

theorem loadRole_name (n : String) :
    loadRole sprint scalars o path (.str n) = .ok [plainDecoded n path {}] := by
  have hknown : ∀ k ∈ defaultRule.insert "names" (.strings [n]),
      k ∈ ["names", "comment", "parents", "options"] := by
    intro k hk
    rcases Std.ExtTreeMap.mem_insert.mp hk with hk | hk
    · exact List.mem_cons.mpr (.inl (compare_eq_iff_eq.mp hk).symm)
    · exact mem_defaultRule hk
  have hrule : normalizeRoleRule sprint (o.sub 0) (.str n) =
      .ok (defaultRule.insert "names" (.strings [n])) :=
    checked_eq_ok.mpr ⟨fun k hk => plain_known (hknown k (Std.ExtTreeMap.mem_map.mp hk)), rfl⟩
  exact Plain.load hrule ⟨hknown, rfl, rfl, rfl, rfl⟩ Yaml.noConfusion decodeOptions_empty

/-- The map of a name alone, completed. -/
theorem normalizeRoleMap_name (o : Order) (n : String) : ∃ rule : Dict Value,
    normalizeRoleMap sprint o ((∅ : Dict Yaml).insert "name" (.str n)) = .ok rule ∧
      ∀ k : String, rule[k]? = if "options" = k then some (.any (.ofMap defaultOptionMap))
        else if "parents" = k then some (.maps [])
        else if "names" = k then some (.strings [n]) else defaultRule[k]? := by
  have hnames : aliasKey ((∅ : Dict Yaml).insert "name" (.str n)) "names" "name" =
      .ok ((∅ : Dict Yaml).insert "names" (.str n)) :=
    aliasKey_rename (by simp) (by simp) (by simp) _
  have hparents : aliasKey ((∅ : Dict Yaml).insert "names" (.str n)) "parents" "parent" =
      .ok ((∅ : Dict Yaml).insert "names" (.str n)) := aliasKey_absent (by simp)
  obtain ⟨rule, hrule⟩ : ∃ rule : Dict Value, rule = Dict.copy defaultRule
    (((∅ : Dict Yaml).insert "names" (.str n)).map fun _ y => .any y) := ⟨_, rfl⟩
  have hget : ∀ k : String, rule[k]? = if "names" = k then some (.any (.str n)) else defaultRule[k]? := by
    intro k
    rw [hrule, Dict.get_copy, Std.ExtTreeMap.getElem?_map, Dict.get_insert]
    split <;> simp
  have hgetNames : rule["names"]? = some (.any (.str n)) := hget "names"
  have hgetParents : rule["parents"]? = some (.strings []) := hget "parents"
  have hgetOptions : rule["options"]? = some (.any (.map [])) := hget "options"
  have hlist : stringList sprint (.any (.str n)) = .ok [n] := rfl
  have hmemberships : normalizeMemberships (o.sub 0) (.strings []) = .ok [] := rfl
  refine ⟨((rule.insert "names" (.strings [n])).insert "parents" (.maps [])).insert "options"
    (.any (.ofMap defaultOptionMap)), ?_, fun k => ?_⟩
  · rw [normalizeRoleMap, hnames, ok_bind, hparents, ok_bind, completed, ← hrule]
    simp only [hgetNames, hlist, ok_bind]
    rw [hgetParents, Option.getD_some, hmemberships, ok_bind, hgetOptions, Option.getD_some, Value.yaml,
      normalizeRoleOptions_empty]
    rfl
  · rw [Dict.get_insert, Dict.get_insert, Dict.get_insert, hget]
    by_cases hk : "names" = k
    · rw [if_pos hk, if_pos hk]
    · rw [if_neg hk, if_neg hk, if_neg hk]

theorem loadRole_map (n : String) :
    loadRole sprint scalars o path (.map [("name", .str n)]) =
      .ok [plainDecoded n path unsetOptions] := by
  obtain ⟨rule, hmap, hget⟩ := normalizeRoleMap_name ((o.sub 0).sub 0) n
  have hknown : ∀ k ∈ rule, k ∈ ["names", "comment", "parents", "options"] := by
    intro k hk
    obtain ⟨v, hv⟩ := Dict.mem_iff.mp hk
    rw [hget] at hv
    split_ifs at hv with hoptions hparents hnames
    · exact hoptions ▸ by decide
    · exact hparents ▸ by decide
    · exact hnames ▸ by decide
    · exact mem_defaultRule (Dict.mem_iff.mpr ⟨v, hv⟩)
  have hrule : normalizeRoleRule sprint (o.sub 0) (.map [("name", .str n)]) = .ok rule :=
    (normalizeRoleRule_eq_ok rfl).mpr ⟨hmap, fun k hk => plain_known (hknown k hk)⟩
  have hoptions : Spells defaultOptionMap unsetOptions :=
    ⟨fun k hk => mem_defaultOptionMap hk, get_defaultOptionMap⟩
  refine Plain.load hrule ⟨hknown, hget "names", ?_, ?_, ?_⟩ Yaml.noConfusion fun o path =>
    decodeOptions_eq hoptions
  · rw [hget "comment"]
    rfl
  · rw [hget "parents"]
    rfl
  · rw [hget "options"]
    rfl

end Plain

/-! ## Singular and plural, one value and a list of one -/

section Interchangeable

/-- What a rule gives depends on its completed map only. -/
theorem loadRole_congr {m m' : Dict Yaml}
    (h : normalizeRoleMap sprint ((o.sub 0).sub 0) m = normalizeRoleMap sprint ((o.sub 0).sub 0) m') :
    loadRole sprint scalars o path (.ofMap m) = loadRole sprint scalars o path (.ofMap m') := by
  rw [loadRole, loadRole, normalizeRoleRule_of_map (Yaml.asMap_ofMap _),
    normalizeRoleRule_of_map (Yaml.asMap_ofMap _), h]

/-- The parents and the names of a rule are renamed apart. -/
theorem aliasKey_parents (v : Yaml) : aliasKey (m.insert "names" v) "parents" "parent" =
    (aliasKey m "parents" "parent").map (·.insert "names" v) :=
  aliasKey_insert (by simp) (by simp) v

theorem mem_parents {out : Dict Yaml} (h : aliasKey m "names" "name" = .ok out) :
    ("parent" ∈ out ↔ "parent" ∈ m) ∧ ("parents" ∈ out ↔ "parents" ∈ m) := by
  simp [mem_aliasKey h]

/-- `name` is `names`. -/
theorem normalizeRoleMap_name_names (hname : "name" ∉ m) (hnames : "names" ∉ m) (v : Yaml) :
    normalizeRoleMap sprint o (m.insert "name" v) = normalizeRoleMap sprint o (m.insert "names" v) := by
  have habsent : "name" ∉ m.insert "names" v := by simpa using hname
  rw [normalizeRoleMap, normalizeRoleMap, aliasKey_rename hnames hname (by simp),
    aliasKey_absent habsent]

/-- `parent` is `parents`. -/
theorem normalizeRoleMap_parent_parents (hparent : "parent" ∉ m) (hparents : "parents" ∉ m) (v : Yaml) :
    normalizeRoleMap sprint o (m.insert "parent" v) = normalizeRoleMap sprint o (m.insert "parents" v) := by
  rw [normalizeRoleMap, normalizeRoleMap, aliasKey_insert (by simp) (by simp),
    aliasKey_insert (by simp) (by simp)]
  cases h : aliasKey m "names" "name" with
  | error fault => rfl
  | ok m' =>
    have hparent' := mt (mem_parents h).1.mp hparent
    have hparents' := mt (mem_parents h).2.mp hparents
    have habsent : "parent" ∉ m'.insert "parents" v := by simpa using hparent'
    show (aliasKey (m'.insert "parent" v) "parents" "parent" >>= _) =
      (aliasKey (m'.insert "parents" v) "parents" "parent" >>= _)
    rw [aliasKey_rename hparents' hparent' (by simp), aliasKey_absent habsent]

theorem copy_insert (key : String) (v : Yaml) :
    Dict.copy defaultRule ((m.insert key v).map fun _ y => .any y) =
      (Dict.copy defaultRule (m.map fun _ y => .any y)).insert key (.any v) := by
  refine Dict.ext_get fun k => ?_
  simp only [Dict.get_copy, Dict.get_insert, Std.ExtTreeMap.getElem?_map]
  split <;> simp_all

theorem insert_insert {β : Type} (m : Dict β) (key : String) (v w : β) :
    (m.insert key v).insert key w = m.insert key w := by
  refine Dict.ext_get fun k => ?_
  simp only [Dict.get_insert]
  split <;> simp_all

/-- The names of a rule are read as a list of strings, and replaced by it. -/
theorem completed_names {v w : Yaml} (h : stringList sprint (.any v) = stringList sprint (.any w)) :
    completed sprint o (m.insert "names" v) = completed sprint o (m.insert "names" w) := by
  unfold completed
  simp only [copy_insert, Dict.get_insert, if_true, h, insert_insert, String.reduceEq, if_false]

theorem completed_names_error {v : Yaml} {fault : Fault} (h : stringList sprint (.any v) = .error fault) :
    completed sprint o (m.insert "names" v) = .error fault := by
  unfold completed
  simp only [copy_insert, Dict.get_insert, if_true, h]
  rfl

/-- Parents are read as a list, and replaced by it. -/
theorem completed_parents {v w : Yaml} (h : Normalize.list v = Normalize.list w) :
    completed sprint o (m.insert "parents" v) = completed sprint o (m.insert "parents" w) := by
  have hmemberships : normalizeMemberships (o.sub 0) (.any v) = normalizeMemberships (o.sub 0) (.any w) := by
    rw [normalizeMemberships, normalizeMemberships, listOf, listOf, h]
  have hreplaced : ∀ (rule : Dict Value) (u : Yaml) (names parents : Value),
      ((rule.insert "parents" (.any u)).insert "names" names).insert "parents" parents =
        (rule.insert "names" names).insert "parents" parents := by
    intro rule u names parents
    refine Dict.ext_get fun k => ?_
    simp only [Dict.get_insert]
    split <;> rfl
  unfold completed
  simp only [copy_insert, Dict.get_insert, if_true, hmemberships, hreplaced, String.reduceEq, if_false,
    Option.getD_some]

theorem aliasKey_key_cases (key other : String) (hne : key ≠ other) (m : Dict Yaml) :
    (∃ fault, ∀ v, aliasKey (m.insert key v) key other = .error fault) ∨
      ∀ v, aliasKey (m.insert key v) key other = .ok (m.insert key v) := by
  by_cases hother : other ∈ m
  · obtain ⟨value, hvalue⟩ := Dict.mem_iff.mp hother
    refine .inl ⟨.error ("key conflict between " ++ key ++ " and " ++ other), fun v => ?_⟩
    rw [aliasKey, Dict.get_insert, if_neg hne, hvalue]
    exact if_pos Std.ExtTreeMap.mem_insert_self
  · refine .inr fun v => aliasKey_absent ?_
    rw [Std.ExtTreeMap.mem_insert, not_or]
    exact ⟨by simpa using hne, hother⟩

/-- A rule is refused whatever its names, or its names are completed with the rest. -/
theorem normalizeRoleMap_names_cases (m : Dict Yaml) :
    (∃ fault, ∀ v, normalizeRoleMap sprint o (m.insert "names" v) = .error fault) ∨
      ∃ m' : Dict Yaml, ∀ v, normalizeRoleMap sprint o (m.insert "names" v) =
        completed sprint o (m'.insert "names" v) := by
  rcases aliasKey_key_cases "names" "name" (by simp) m with ⟨fault, h⟩ | h
  · refine .inl ⟨fault, fun v => ?_⟩
    rw [normalizeRoleMap, h v]
    rfl
  · cases hparents : aliasKey m "parents" "parent" with
    | error fault =>
      refine .inl ⟨fault, fun v => ?_⟩
      rw [normalizeRoleMap, h v, ok_bind, aliasKey_parents, hparents]
      rfl
    | ok m' =>
      refine .inr ⟨m', fun v => ?_⟩
      rw [normalizeRoleMap, h v, ok_bind, aliasKey_parents, hparents]
      rfl

/-- One parent or a list of one. -/
theorem normalizeRoleMap_parents {v w : Yaml} (h : Normalize.list v = Normalize.list w) :
    normalizeRoleMap sprint o (m.insert "parents" v) = normalizeRoleMap sprint o (m.insert "parents" w) := by
  rw [normalizeRoleMap, normalizeRoleMap, aliasKey_insert (by simp) (by simp),
    aliasKey_insert (by simp) (by simp)]
  cases aliasKey m "names" "name" with
  | error fault => rfl
  | ok m' =>
    show (aliasKey (m'.insert "parents" v) "parents" "parent" >>= _) =
      (aliasKey (m'.insert "parents" w) "parents" "parent" >>= _)
    rcases aliasKey_key_cases "parents" "parent" (by simp) m' with ⟨fault, hm'⟩ | hm'
    · rw [hm' v, hm' w]
    · rw [hm' v, hm' w, ok_bind, ok_bind, completed_parents h]

/-- A rule with both the singular and the plural of a key is refused. -/
theorem loadRole_conflict (h : ("name" ∈ m ∧ "names" ∈ m) ∨ ("parent" ∈ m ∧ "parents" ∈ m)) :
    ∃ err, loadRole sprint scalars o path (.ofMap m) = .error (.error err) := by
  have hmap : ∃ err, normalizeRoleMap sprint ((o.sub 0).sub 0) m = .error (.error err) := by
    rw [normalizeRoleMap]
    have hkeys : ∀ m', aliasKey m "names" "name" = .ok m' → "parent" ∈ m' ∧ "parents" ∈ m' := by
      intro m' hm'
      rcases h with ⟨hname, hnames⟩ | ⟨hparent, hparents⟩
      · exact absurd ⟨hname, hnames⟩ (aliasKey_ok_iff.mp ⟨m', hm'⟩)
      · exact ⟨(mem_parents hm').1.mpr hparent, (mem_parents hm').2.mpr hparents⟩
    cases hnames : aliasKey m "names" "name" with
    | error fault =>
      obtain ⟨err, rfl⟩ := aliasKey_returns fault hnames
      exact ⟨err, rfl⟩
    | ok m' =>
      cases hparents : aliasKey m' "parents" "parent" with
      | ok m'' => exact absurd (hkeys m' hnames) (aliasKey_ok_iff.mp ⟨m'', hparents⟩)
      | error fault =>
        obtain ⟨err, rfl⟩ := aliasKey_returns fault hparents
        refine ⟨err, ?_⟩
        rw [ok_bind, hparents]
        rfl
  obtain ⟨err, herr⟩ := hmap
  refine ⟨err, ?_⟩
  rw [loadRole, normalizeRoleRule_of_map (Yaml.asMap_ofMap m), herr]
  rfl

end Interchangeable

/-! ## What a spelling means -/

/-- The value, where nothing was refused. -/
def Decoded.accepted {α : Type} (d : Decoded α) : Option α :=
  match d.errors with
  | [] => some d.value
  | _ => none

/-- The roles of a rule that is accepted. -/
def meaning (x : Except Fault (List (Decoded RoleRule))) : Option (List RoleRule) :=
  x.toOption.bind fun rules => rules.mapM Decoded.accepted

/-- A parent, normalised and decoded. -/
def loadMembership (o : Order) (path : String) (raw : Yaml) : Option Format :=
  (normalizeMembership (o.sub 0) raw).toOption.bind fun m =>
    Decoded.accepted (decodeMembership (o.sub 1) path (.ofMap m))

/-- The words that `normalize.Boolean` replaces. -/
def booleanWords : List String :=
  ["y", "Y", "yes", "Yes", "YES", "on", "On", "ON", "n", "N", "no", "No", "NO", "off", "Off", "OFF"]

theorem boolean_of_not_mem {p : String} (h : p ∉ booleanWords) : boolean (.str p) = .str p := by
  have hyes : p ∉ ["y", "Y", "yes", "Yes", "YES", "on", "On", "ON"] := fun hp =>
    h (List.mem_append_left _ hp)
  have hno : p ∉ ["n", "N", "no", "No", "NO", "off", "Off", "OFF"] := fun hp =>
    h (List.mem_append_right ["y", "Y", "yes", "Yes", "YES", "on", "On", "ON"] hp)
  rw [boolean, if_neg hyes, if_neg hno]

section Memberships

theorem mem_single {y : Yaml} (h : k ∈ (∅ : Dict Yaml).insert "name" y) : k = "name" := by
  rw [Std.ExtTreeMap.mem_insert, compare_eq_iff_eq] at h
  exact (h.resolve_right Std.ExtTreeMap.not_mem_empty).symm

/-- The checks of `normalizeMembership`. -/
theorem membership_eq_ok {value p : Dict Yaml} :
    (if "name" ∈ value then do
        spuriousKeys o value ["name", "inherit", "set", "admin"]
        return value
      else .error (.error "missing name")) = Except.ok p ↔
      ("name" ∈ value ∧ ∀ k ∈ value, k ∈ ["name", "inherit", "set", "admin"]) ∧ value = p := by
  by_cases hname : "name" ∈ value
  · rw [if_pos hname, checked_eq_ok, and_iff_right hname]
  · rw [if_neg hname]
    exact iff_of_false nofun fun h => hname h.1.1

theorem membership_named (y : Yaml) : "name" ∈ (∅ : Dict Yaml).insert "name" y ∧
    ∀ k ∈ (∅ : Dict Yaml).insert "name" y, k ∈ ["name", "inherit", "set", "admin"] :=
  ⟨Std.ExtTreeMap.mem_insert_self, fun _ hk => mem_single hk ▸ List.mem_cons_self⟩

theorem normalizeMembership_name (p : String) :
    normalizeMembership o (.str p) = .ok ((∅ : Dict Yaml).insert "name" (.str p)) :=
  membership_eq_ok.mpr ⟨membership_named (.str p), rfl⟩

theorem normalizeMembership_map (p : String) : normalizeMembership o (.map [("name", .str p)]) =
    .ok ((∅ : Dict Yaml).insert "name" (boolean (.str p))) := by
  have hboolean : (Dict.fill Prod.fst Prod.snd ∅ [("name", Yaml.str p)]).map (fun _ v => boolean v) =
      (∅ : Dict Yaml).insert "name" (boolean (.str p)) := by
    refine Dict.ext_get fun k => ?_
    simp only [Dict.fill, List.foldl_cons, List.foldl_nil, Std.ExtTreeMap.getElem?_map, Dict.get_insert]
    split <;> simp
  exact membership_eq_ok.mpr ⟨hboolean ▸ membership_named _, hboolean⟩

theorem decodeMembership_name (p : String) :
    decodeMembership o path (.ofMap ((∅ : Dict Yaml).insert "name" (.str p))) =
      decodeFormat .sorted (path ++ "." ++ "Name") (.str p) := by
  have hfold : Decode.equalFold "name" "Name" = true := by decide +kernel
  have honly : ∀ k ∈ (∅ : Dict Yaml).insert "name" (.str p), Decode.equalFold k "Name" = true →
      k = "name" := fun k hk _ => mem_single hk
  refine Decode.record_of_tagged (Yaml.asMap_ofMap _) (fun k hk => ?_) ?_
  · obtain rfl := mem_single hk
    exact ⟨_, List.mem_cons_self, hfold, honly⟩
  · simp only [List.zipIdx_cons, List.zipIdx_nil, List.foldl_cons, List.foldl_nil]
    rw [storeField_key hfold honly (Dict.get_insert ..) Yaml.noConfusion]
    rfl

/-- A parent is the same as a string and in a map, unless it reads as a boolean. -/
theorem loadMembership_iff (p : String) :
    loadMembership o path (.str p) = loadMembership o path (.map [("name", .str p)]) ↔
      p ∉ booleanWords := by
  have hwords : ∀ w ∈ booleanWords, ∃ b, boolean (.str w) = .str b ∧
      Parse.parse w = .ok (⟨w, [.literal w]⟩, none) ∧ Parse.parse b = .ok (⟨b, [.literal b]⟩, none) ∧
      w ≠ b := by
    have htrue : Parse.parse "true" = .ok (⟨"true", [.literal "true"]⟩, none) := by decide +kernel
    have hfalse : Parse.parse "false" = .ok (⟨"false", [.literal "false"]⟩, none) := by decide +kernel
    have hparse : ∀ w ∈ booleanWords, Parse.parse w = .ok (⟨w, [.literal w]⟩, none) ∧ w ≠ "true" ∧
        w ≠ "false" := by decide +kernel
    intro w hw
    obtain ⟨hw', hne, hne'⟩ := hparse w hw
    by_cases hyes : w ∈ ["y", "Y", "yes", "Yes", "YES", "on", "On", "ON"]
    · exact ⟨"true", by rw [boolean, if_pos hyes], hw', htrue, hne⟩
    · have hno := (List.mem_append.mp (show w ∈ _ ++ _ from hw)).resolve_left hyes
      exact ⟨"false", by rw [boolean, if_neg hyes, if_pos hno], hw', hfalse, hne'⟩
  unfold loadMembership
  rw [normalizeMembership_name, normalizeMembership_map]
  constructor
  · intro h hin
    obtain ⟨b, hb, hparse, hparse', hne⟩ := hwords p hin
    rw [hb] at h
    simp only [Except.toOption, Option.bind_some, decodeMembership_name, decodeFormat, Yaml.asString,
      Option.getD_some, hparse, hparse', Decoded.accepted] at h
    exact hne (congrArg Format.input (Option.some.inj h))
  · intro h
    rw [boolean_of_not_mem h]

end Memberships

/-! ## A rule without names -/

/-- A parent that is accepted: a name, or a map with a name. -/
def MembershipAccepted (raw : Yaml) : Prop :=
  (∃ s, raw = .str s) ∨ ∃ p, raw.asMap = some p ∧ "name" ∈ p ∧
    ∀ k ∈ p, k ∈ ["name", "inherit", "set", "admin"]

/-- The option that a word sets. -/
def optionOf (token : List Char) : String :=
  if "NO".toList.isPrefixOf token then String.ofList (token.drop 2) else String.ofList token

/-- Options that are accepted: words or a map, all of them known. -/
def OptionsAccepted (y : Yaml) : Prop :=
  y = .null ∨
    (∃ s, y = .str s ∧ ∀ token ∈ s.toList.splitOn ' ', token ≠ [] →
      optionOf token ∈ defaultOptions.map Prod.fst) ∨
    ∃ p, y.asMap = some p ∧ ∀ k ∈ p, k ∈ defaultOptions.map Prod.fst

/-- The keys of a rule but its names are accepted. -/
structure RestAccepted (m : Dict Yaml) : Prop where
  name : "name" ∉ m
  parent : ¬ ("parent" ∈ m ∧ "parents" ∈ m)
  keys : ∀ k ∈ m, k ∈ "parent" :: ruleKeys
  parents : ∀ y, m["parent"]?.or m["parents"]? = some y →
    ∀ raw ∈ Normalize.list y, MembershipAccepted raw
  options : ∀ y, m["options"]? = some y → OptionsAccepted y

section Rest

theorem normalizeMembership_ok_iff {raw : Yaml} :
    (∃ p, normalizeMembership o raw = .ok p) ↔ MembershipAccepted raw := by
  cases raw with
  | str s => exact iff_of_true ⟨_, normalizeMembership_name s⟩ (.inl ⟨s, rfl⟩)
  | map entries =>
    refine (exists_congr fun _ => membership_eq_ok).trans ?_
    simp [MembershipAccepted, Yaml.asMap]
  | _ => exact iff_of_false (fun ⟨_, h⟩ => by cases h) (by simp [MembershipAccepted, Yaml.asMap])

theorem normalizeMemberships_ok_iff {raw : Value} :
    (∃ l, normalizeMemberships o raw = .ok l) ↔ ∀ y ∈ listOf raw, MembershipAccepted y := by
  constructor
  · rintro ⟨l, hl⟩ y hy
    obtain ⟨i, hi⟩ := exists_mem_zipIdx hy
    obtain ⟨p, _, hp⟩ := mem_mapM_ok hl hi
    exact normalizeMembership_ok_iff.mp ⟨p, mapError_eq_ok.mp hp⟩
  · intro h
    refine exists_mapM_ok fun ri hri => ?_
    obtain ⟨p, hp⟩ := (normalizeMembership_ok_iff (o := o.sub ri.2)).mpr
      (h ri.1 (List.fst_mem_of_mem_zipIdx hri))
    exact ⟨p, mapError_eq_ok.mpr hp⟩

theorem mem_setOptions {tokens : List (List Char)} : ∀ {value : Dict Yaml},
    k ∈ tokens.foldl setOption value ↔
      k ∈ value ∨ ∃ token ∈ tokens, token ≠ [] ∧ optionOf token = k := by
  induction tokens with
  | nil => simp
  | cons token tokens ih =>
    intro value
    have hset : k ∈ setOption value token ↔ k ∈ value ∨ token ≠ [] ∧ optionOf token = k := by
      unfold setOption optionOf
      by_cases hempty : token = []
      · simp [hempty]
      · rw [if_neg hempty]
        split <;> simp [hempty, or_comm]
    rw [List.foldl_cons, ih, hset, List.exists_mem_cons_iff, or_assoc]

theorem normalizeRoleOptions_ok_iff {y : Yaml} :
    (∃ options, normalizeRoleOptions o y = .ok options) ↔ OptionsAccepted y := by
  unfold normalizeRoleOptions OptionsAccepted
  dsimp only
  split
  case h_1 => exact iff_of_true ⟨_, rfl⟩ (.inl rfl)
  case h_2 s =>
    refine (exists_congr fun _ => checked_eq_ok).trans ?_
    simp only [exists_and_left, exists_eq', and_true, mem_setOptions, reduceCtorEq,
      Yaml.str.injEq, exists_eq_left', false_or, Yaml.asMap, false_and, exists_false, or_false]
    constructor
    · exact fun h token htoken hne => h _ (.inr ⟨token, htoken, hne, rfl⟩)
    · rintro h k (hk | ⟨token, htoken, hne, rfl⟩)
      · exact mem_defaultOptionMap hk
      · exact h token htoken hne
  case h_3 hnull hstr =>
    cases y.asMap with
    | none => exact iff_of_false nofun fun h => by simp_all
    | some p =>
      refine (exists_congr fun _ => checked_eq_ok).trans ?_
      simp only [exists_and_left, exists_eq', and_true, Dict.mem_copy, Std.ExtTreeMap.mem_map,
        Option.some.injEq, exists_eq_left']
      constructor
      · exact fun h => .inr (.inr fun k hk => h k (.inr hk))
      · rintro h k (hk | hk)
        · exact mem_defaultOptionMap hk
        · exact (h.resolve_left hnull).elim (fun ⟨s, hs, _⟩ => absurd hs (hstr s)) fun h => h k hk

theorem RestAccepted.congr_keys {m' : Dict Yaml} (h : aliasKey m "parents" "parent" = .ok m') :
    (∀ k ∈ m, k ∈ "parent" :: ruleKeys) ↔ ∀ k ∈ m', k ∈ ruleKeys := by
  simp only [mem_aliasKey h (by simp)]
  constructor
  · rintro hm k (⟨hk, hin⟩ | ⟨rfl, _⟩)
    · exact (List.mem_cons.mp (hm k hin)).resolve_left hk
    · decide
  · intro hm k hin
    by_cases hk : k = "parent"
    · exact hk ▸ List.mem_cons_self
    · exact List.mem_cons_of_mem _ (hm k (.inl ⟨hk, hin⟩))

/-- A rule whose names are null is no role, unless something else is refused. -/
theorem completed_null : completed sprint o (m.insert "names" .null) = .ok rule ↔
    ∃ parents options,
      normalizeMemberships (o.sub 0) (((m["parents"]?.map Value.any).or (some (.strings []))).getD
        (.any .null)) = .ok parents ∧
      normalizeRoleOptions (o.sub 1) (m["options"]?.getD (.map [])) = .ok options ∧
      rule = (((Dict.copy defaultRule (m.map fun _ y => .any y)).insert "names" (.strings [])).insert
        "parents" (.maps parents)).insert "options" (.any (.ofMap options)) := by
  have hparents : defaultRule["parents"]? = some (.strings []) := rfl
  have hoptions : defaultRule["options"]? = some (.any (.map [])) := rfl
  have hyaml : ((m["options"]?.map Value.any).or (some (.any (.map [])))).getD (.any .null) =
      .any (m["options"]?.getD (.map [])) := by
    cases m["options"]? <;> rfl
  unfold completed
  simp only [copy_insert, Dict.get_insert, if_true, insert_insert, String.reduceEq, if_false,
    Dict.get_copy, Std.ExtTreeMap.getElem?_map, hparents, hoptions, hyaml, Value.yaml]
  constructor
  · intro h
    obtain ⟨names, hnames, h⟩ := bind_eq_ok.mp h
    cases hnames
    obtain ⟨parents, hparents, h⟩ := bind_eq_ok.mp h
    obtain ⟨options, hoptions, h⟩ := bind_eq_ok.mp h
    cases h
    exact ⟨parents, options, hparents, mapError_eq_ok.mp hoptions, rfl⟩
  · rintro ⟨parents, options, hparents, hoptions, rfl⟩
    refine bind_eq_ok.mpr ⟨[], rfl, bind_eq_ok.mpr ⟨parents, hparents, ?_⟩⟩
    exact bind_eq_ok.mpr ⟨options, mapError_eq_ok.mpr hoptions, rfl⟩

theorem normalizeRoleMap_null :
    normalizeRoleMap sprint o (m.insert "names" .null) = .ok rule ↔ "name" ∉ m ∧
      ∃ m', aliasKey m "parents" "parent" = .ok m' ∧
        completed sprint o (m'.insert "names" .null) = .ok rule := by
  rw [normalizeRoleMap]
  by_cases hname : "name" ∈ m
  · have hconflict : ¬ ∃ out, aliasKey (m.insert "names" .null) "names" "name" = .ok out := fun h =>
      aliasKey_ok_iff.mp h ⟨by simpa using hname, Std.ExtTreeMap.mem_insert_self⟩
    refine iff_of_false (fun h => ?_) fun h => h.1 hname
    obtain ⟨out, hout, _⟩ := bind_eq_ok.mp h
    exact hconflict ⟨out, hout⟩
  · rw [aliasKey_absent (by simpa using hname), ok_bind, aliasKey_parents,
      and_iff_right hname]
    cases aliasKey m "parents" "parent" with
    | error fault => exact iff_of_false nofun nofun
    | ok m' => exact ⟨fun h => ⟨m', rfl, h⟩, fun ⟨_, h, h'⟩ => by cases h; exact h'⟩

/-- The map of a rule without names is completed where the rest is accepted. -/
theorem completed_null_iff {out : Dict Yaml} (h : aliasKey m "parents" "parent" = .ok out) :
    (∃ rule, completed sprint o (out.insert "names" .null) = .ok rule ∧ ∀ k ∈ rule, k ∈ ruleKeys) ↔
      (∀ k ∈ m, k ∈ "parent" :: ruleKeys) ∧
      (∀ y, m["parent"]?.or m["parents"]? = some y →
        ∀ raw ∈ Normalize.list y, MembershipAccepted raw) ∧
      ∀ y, m["options"]? = some y → OptionsAccepted y := by
  have hparents : (∃ parents, normalizeMemberships (o.sub 0)
      (((out["parents"]?.map Value.any).or (some (.strings []))).getD (.any .null)) = .ok parents) ↔
      ∀ y, m["parent"]?.or m["parents"]? = some y →
        ∀ raw ∈ Normalize.list y, MembershipAccepted raw := by
    rw [normalizeMemberships_ok_iff, aliasKey_get h (by simp), if_pos rfl]
    cases m["parent"]?.or m["parents"]? with
    | none => exact iff_of_true nofun nofun
    | some y => simp [listOf]
  have hoptions : (∃ options, normalizeRoleOptions (o.sub 1) (out["options"]?.getD (.map [])) =
      .ok options) ↔ ∀ y, m["options"]? = some y → OptionsAccepted y := by
    have hget : out["options"]? = m["options"]? := by simp [aliasKey_get h]
    rw [normalizeRoleOptions_ok_iff, hget]
    cases m["options"]? with
    | none => exact iff_of_true (.inr (.inr ⟨∅, rfl, by simp⟩)) nofun
    | some y => simp
  rw [RestAccepted.congr_keys h, ← hparents, ← hoptions]
  simp only [completed_null]
  constructor
  · rintro ⟨_, ⟨parents, options, hp, ho, rfl⟩, hkeys⟩
    refine ⟨fun k hk => hkeys k ?_, ⟨parents, hp⟩, ⟨options, ho⟩⟩
    simp [Dict.mem_copy, hk]
  · rintro ⟨hkeys, ⟨parents, hp⟩, ⟨options, ho⟩⟩
    refine ⟨_, ⟨parents, options, hp, ho, rfl⟩, fun k hk => ?_⟩
    simp only [Std.ExtTreeMap.mem_insert, compare_eq_iff_eq, Dict.mem_copy, Std.ExtTreeMap.mem_map] at hk
    rcases hk with rfl | rfl | rfl | hk | hk
    · decide
    · decide
    · decide
    · exact plain_known (mem_defaultRule hk)
    · exact hkeys k hk

/-- A rule whose names are null is no role, and accepted where the rest is. -/
theorem loadRole_null {rules : List (Decoded RoleRule)} :
    loadRole sprint scalars o path (.ofMap (m.insert "names" .null)) = .ok rules ↔
      rules = [] ∧ RestAccepted m := by
  have hrest : RestAccepted m ↔ ∃ rule,
      normalizeRoleMap sprint ((o.sub 0).sub 0) (m.insert "names" .null) = .ok rule ∧
        ∀ k ∈ rule, k ∈ ruleKeys := by
    simp only [normalizeRoleMap_null]
    constructor
    · intro h
      obtain ⟨m', hm'⟩ := aliasKey_ok_iff.mpr h.parent
      obtain ⟨rule, hrule, hkeys⟩ := (completed_null_iff hm').mpr ⟨h.keys, h.parents, h.options⟩
      exact ⟨rule, ⟨h.name, m', hm', hrule⟩, hkeys⟩
    · rintro ⟨rule, ⟨hname, m', hm', hrule⟩, hkeys⟩
      obtain ⟨hknown, hparents, hoptions⟩ := (completed_null_iff hm').mp ⟨rule, hrule, hkeys⟩
      exact ⟨hname, aliasKey_ok_iff.mp ⟨m', hm'⟩, hknown, hparents, hoptions⟩
  have hnames : ∀ {rule}, normalizeRoleMap sprint ((o.sub 0).sub 0) (m.insert "names" .null) = .ok rule →
      duplicateRoleRules rule = .ok [] := by
    intro rule hrule
    obtain ⟨_, m', _, hrule⟩ := normalizeRoleMap_null.mp hrule
    obtain ⟨parents, options, _, _, rfl⟩ := completed_null.mp hrule
    rw [duplicateRoleRules]
    simp only [Dict.get_insert, String.reduceEq, if_false, if_true]
    rfl
  rw [hrest, loadRole, bind_eq_ok]
  simp only [normalizeRoleRule_eq_ok (Yaml.asMap_ofMap _)]
  constructor
  · rintro ⟨rule, ⟨hmap, hkeys⟩, h⟩
    rw [hnames hmap] at h
    cases h
    exact ⟨rfl, rule, hmap, hkeys⟩
  · rintro ⟨rfl, rule, hmap, hkeys⟩
    exact ⟨rule, ⟨hmap, hkeys⟩, by rw [hnames hmap]; rfl⟩

end Rest

section Meaning

theorem decodeFormat_errors :
    (decodeFormat o path (.str n)).errors = [] ↔ ∃ format, Parse.parse n = .ok (format, none) := by
  rw [decodeFormat, Yaml.asString, Option.getD_some]
  rcases Parse.parse n with _ | ⟨format, _ | err⟩ <;> simp

theorem meaning_plain (h : ∃ format, Parse.parse n = .ok (format, none)) (options : Options) :
    meaning (.ok [plainDecoded n path options]) =
      some [(plainDecoded n path options).value] := by
  have herrors : (plainDecoded n path options).errors = [] := decodeFormat_errors.mpr h
  simp [meaning, Except.toOption, Decoded.accepted, herrors]

theorem meaning_malformed (h : ¬ ∃ format, Parse.parse n = .ok (format, none)) (options : Options) :
    meaning (.ok [plainDecoded n path options]) = none := by
  have herrors : (plainDecoded n path options).errors ≠ [] := mt decodeFormat_errors.mp h
  obtain ⟨err, errs, hcons⟩ := List.exists_cons_of_ne_nil herrors
  simp [meaning, Except.toOption, Decoded.accepted, hcons]

/-- A name alone leaves every option zero, where the map gets their defaults. -/
theorem meaning_name_iff (n : String) :
    meaning (loadRole sprint scalars o path (.str n)) =
        meaning (loadRole sprint scalars o path (.map [("name", .str n)])) ↔
      ¬ ∃ format, Parse.parse n = .ok (format, none) := by
  rw [loadRole_name, loadRole_map]
  by_cases hparse : ∃ format, Parse.parse n = .ok (format, none)
  · rw [meaning_plain hparse, meaning_plain hparse]
    refine iff_of_false (fun h => ?_) (not_not_intro hparse)
    have hvalue := List.head_eq_of_cons_eq (Option.some.inj h)
    exact Bool.false_ne_true (congrArg (fun r => r.options.inherit) hvalue)
  · rw [meaning_malformed hparse, meaning_malformed hparse]
    exact iff_of_true rfl hparse

theorem meaning_error {m : Dict Yaml} {fault : Fault}
    (h : normalizeRoleMap sprint ((o.sub 0).sub 0) m = .error fault) :
    meaning (loadRole sprint scalars o path (.ofMap m)) = none := by
  rw [loadRole, normalizeRoleRule_of_map (Yaml.asMap_ofMap m), h]
  rfl

theorem meaning_null_iff (m : Dict Yaml) :
    meaning (loadRole sprint scalars o path (.ofMap (m.insert "names" .null))) = none ↔
      ¬ RestAccepted m := by
  cases hload : loadRole sprint scalars o path (.ofMap (m.insert "names" .null)) with
  | error fault =>
    refine iff_of_true rfl fun hrest => ?_
    cases hload.symm.trans (loadRole_null.mpr ⟨rfl, hrest⟩)
  | ok rules =>
    obtain ⟨rfl, hrest⟩ := loadRole_null.mp hload
    exact iff_of_false nofun (not_not_intro hrest)

/-- One name or a list of one. A null is no name. -/
theorem meaning_names_iff {v : Yaml} (hv : v.asList = none) (m : Dict Yaml) :
    meaning (loadRole sprint scalars o path (.ofMap (m.insert "names" v))) =
        meaning (loadRole sprint scalars o path (.ofMap (m.insert "names" (.list [v])))) ↔
      (v = .null → ¬ RestAccepted m) := by
  rw [← @meaning_null_iff sprint scalars o path m]
  have hcases := @normalizeRoleMap_names_cases sprint ((o.sub 0).sub 0) m
  rcases hcases with ⟨fault, h⟩ | ⟨m', h⟩
  · rw [meaning_error (h v), meaning_error (h _), meaning_error (h .null)]
    exact iff_of_true rfl fun _ => rfl
  · have hrefused : ∀ {w : Yaml} {fault : Fault}, stringList sprint (.any w) = .error fault →
        meaning (loadRole sprint scalars o path (.ofMap (m.insert "names" w))) = none :=
      fun hw => meaning_error ((h _).trans (completed_names_error hw))
    cases v with
    | null =>
      rw [hrefused (w := .list [.null]) rfl]
      exact ⟨fun heq _ => heq, fun hnone => hnone rfl⟩
    | str s =>
      have hnames : stringList sprint (.any (.str s)) = stringList sprint (.any (.list [.str s])) := rfl
      have hsame := (h (.str s)).trans ((completed_names hnames).trans (h (.list [.str s])).symm)
      rw [loadRole_congr hsame]
      exact iff_of_true rfl nofun
    | list items => cases hv
    | _ =>
      rw [hrefused rfl, hrefused rfl]
      exact iff_of_true rfl nofun

end Meaning

/-- **Spellings of a role rule**: singular and plural keys, one parent and a list of one,
are interchangeable, and both keys at once are refused; so are a name and a list of one,
unless it is null in a rule where nothing else is refused, and a parent as a string and in
a map, unless it reads as a boolean. A role given by its name alone never means the map of
its name. -/
theorem role_spellings (sprint : Yaml → String) (scalars : Decode.Scalars) (o : Order)
    (path : String) :
    (∀ n, meaning (loadRole sprint scalars o path (.str n)) =
        meaning (loadRole sprint scalars o path (.map [("name", .str n)])) ↔
      ¬ ∃ format, Parse.parse n = .ok (format, none)) ∧
    (∀ (m : Dict Yaml) (v : Yaml), "name" ∉ m → "names" ∉ m →
      loadRole sprint scalars o path (.ofMap (m.insert "name" v)) =
        loadRole sprint scalars o path (.ofMap (m.insert "names" v))) ∧
    (∀ (m : Dict Yaml) (v : Yaml), "parent" ∉ m → "parents" ∉ m →
      loadRole sprint scalars o path (.ofMap (m.insert "parent" v)) =
        loadRole sprint scalars o path (.ofMap (m.insert "parents" v))) ∧
    (∀ (m : Dict Yaml) (v : Yaml), v.asList = none →
      (meaning (loadRole sprint scalars o path (.ofMap (m.insert "names" v))) =
        meaning (loadRole sprint scalars o path (.ofMap (m.insert "names" (.list [v])))) ↔
      (v = .null → ¬ RestAccepted m))) ∧
    (∀ (m : Dict Yaml) (v : Yaml), v.asList = none →
      loadRole sprint scalars o path (.ofMap (m.insert "parents" v)) =
        loadRole sprint scalars o path (.ofMap (m.insert "parents" (.list [v])))) ∧
    (∀ p, loadMembership o path (.str p) = loadMembership o path (.map [("name", .str p)]) ↔
      p ∉ booleanWords) ∧
    (∀ m : Dict Yaml, ("name" ∈ m ∧ "names" ∈ m) ∨ ("parent" ∈ m ∧ "parents" ∈ m) →
      ∃ err, loadRole sprint scalars o path (.ofMap m) = .error (.error err)) := by
  refine ⟨meaning_name_iff, ?_, ?_, fun m v hv => meaning_names_iff hv m, ?_, loadMembership_iff,
    fun m h => loadRole_conflict h⟩
  · intro m v hname hnames
    exact loadRole_congr (normalizeRoleMap_name_names hname hnames v)
  · intro m v hparent hparents
    exact loadRole_congr (normalizeRoleMap_parent_parents hparent hparents v)
  · intro m v hv
    have hlist : Normalize.list v = [v] := by
      cases v with
      | list items => cases hv
      | _ => rfl
    exact loadRole_congr (normalizeRoleMap_parents hlist)

/-- `alice` alone does not inherit, and `name: alice` does; the parent `yes` is one role, and
`name: yes` another. -/
theorem alice_spelled_twice :
    (∀ sprint scalars o path, (meaning (loadRole sprint scalars o path (.str "alice"))).map
        (List.map fun r => r.options.inherit) = some [false] ∧
      (meaning (loadRole sprint scalars o path (.map [("name", .str "alice")]))).map
        (List.map fun r => r.options.inherit) = some [true]) ∧
    loadMembership .sorted "" (.str "yes") = some ⟨"yes", [.literal "yes"]⟩ ∧
    loadMembership .sorted "" (.map [("name", .str "yes")]) = some ⟨"true", [.literal "true"]⟩ := by
  refine ⟨fun sprint scalars o path => ?_, by decide +kernel, by decide +kernel⟩
  have hparse : ∃ format, Parse.parse "alice" = .ok (format, none) :=
    ⟨⟨"alice", [.literal "alice"]⟩, by decide +kernel⟩
  rw [loadRole_name, loadRole_map, meaning_plain hparse, meaning_plain hparse]
  exact ⟨rfl, rfl⟩

end Ldap2pg.Config
