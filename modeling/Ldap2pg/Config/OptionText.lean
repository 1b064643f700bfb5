import Ldap2pg.Config.Role

/-! # Options written as a text and read back

`Options.String` writes `NOSUPERUSER LOGIN CONNECTION LIMIT 5`; `NormalizeRoleOptions` cuts
such a text at blanks and takes each word for an option. `CONNECTION LIMIT` is two words
and a number, which the reader takes for three unknown options. -/
namespace Ldap2pg.Config
open Lib Normalize Roles

/-- The value of an option, in a document. -/
def optionYaml : OptionValue → Yaml
  | .bool b => .bool b
  | .int n => .int n

/-- The options of a role that sets none. -/
def unsetOptions : Options := { inherit := true, connLimit := -1 }

theorem options_ext {a b : Options} (h : ∀ c, a.get c = b.get c) : a = b := by
  have hsuper := OptionValue.bool.inj (h .rolsuper)
  have hcreateDB := OptionValue.bool.inj (h .rolcreatedb)
  have hcreateRole := OptionValue.bool.inj (h .rolcreaterole)
  have hinherit := OptionValue.bool.inj (h .rolinherit)
  have hcanLogin := OptionValue.bool.inj (h .rolcanlogin)
  have hreplication := OptionValue.bool.inj (h .rolreplication)
  have hbyPassRLS := OptionValue.bool.inj (h .rolbypassrls)
  have hconnLimit := OptionValue.int.inj (h .rolconnlimit)
  cases a
  cases b
  simp_all

/-- `value` has an entry for each option and no other. -/
structure Spells (value : Dict Yaml) (opts : Options) : Prop where
  known : ∀ k ∈ value, k ∈ defaultOptions.map Prod.fst
  get : ∀ c : Column, value[c.keyword]? = some (optionYaml (opts.get c))

section Decode
variable {scalars : Decode.Scalars} {o : Order} {path : String} {value : Dict Yaml} {opts : Options}

/-- A field takes the key that is its tag. -/
theorem storeField_of_get {α ρ : Type} {decode : Decoder α} {put : α → ρ → ρ} {tag : String}
    {st : Decoded ρ} {i : Nat} {y : Yaml} (h : value[tag]? = some y) (hy : y ≠ .null) :
    Decode.storeField o path value st (Decode.field tag decode put, i) =
      ⟨put (decode ((o.sub 1).sub i) (path ++ "." ++ tag) y).value st.value,
        st.errors ++ (decode ((o.sub 1).sub i) (path ++ "." ++ tag) y).errors⟩ := by
  have hmatch : Decode.matchKey ((o.sub 0).sub i) value tag = some tag :=
    if_pos (Dict.mem_iff.mpr ⟨y, h⟩)
  unfold Decode.storeField
  rw [show (Decode.field tag decode put, i).1.tag = tag from rfl, hmatch, Option.bind_some, h]
  cases y with
  | null => exact absurd rfl hy
  | _ => rfl

theorem tagged_options (h : Spells value opts) :
    ∀ k ∈ value, Decode.Tagged (optionsFields scalars) value k := by
  have htags : ∀ k ∈ defaultOptions.map Prod.fst, ∃ tag ∈ Column.all.map Column.keyword,
      Decode.equalFold k tag = true ∧
        ∀ k' ∈ defaultOptions.map Prod.fst, Decode.equalFold k' tag = true → k' = k := by
    decide +kernel
  exact Decode.tagged_of_tags (fun _ => id) htags h.known

/-- **Options that are spelled are decoded.** -/
theorem decodeOptions_eq (h : Spells value opts) :
    decodeOptions scalars o path (.ofMap value) = ⟨opts, []⟩ := by
  have hsuper : value["SUPERUSER"]? = some (.bool opts.super) := h.get .rolsuper
  have hcreateDB : value["CREATEDB"]? = some (.bool opts.createDB) := h.get .rolcreatedb
  have hcreateRole : value["CREATEROLE"]? = some (.bool opts.createRole) := h.get .rolcreaterole
  have hinherit : value["INHERIT"]? = some (.bool opts.inherit) := h.get .rolinherit
  have hcanLogin : value["LOGIN"]? = some (.bool opts.canLogin) := h.get .rolcanlogin
  have hreplication : value["REPLICATION"]? = some (.bool opts.replication) := h.get .rolreplication
  have hbyPassRLS : value["BYPASSRLS"]? = some (.bool opts.byPassRLS) := h.get .rolbypassrls
  have hconnLimit : value["CONNECTION LIMIT"]? = some (.int opts.connLimit) := h.get .rolconnlimit
  have hout : (optionsFields scalars).zipIdx.foldl (Decode.storeField o path value) ⟨{}, []⟩ =
      ⟨opts, []⟩ := by
    simp only [optionsFields, List.zipIdx_cons, List.zipIdx_nil, List.foldl_cons, List.foldl_nil]
    rw [storeField_of_get hsuper Yaml.noConfusion, storeField_of_get hcreateDB Yaml.noConfusion,
      storeField_of_get hcreateRole Yaml.noConfusion, storeField_of_get hinherit Yaml.noConfusion,
      storeField_of_get hcanLogin Yaml.noConfusion, storeField_of_get hreplication Yaml.noConfusion,
      storeField_of_get hbyPassRLS Yaml.noConfusion, storeField_of_get hconnLimit Yaml.noConfusion]
    simp only [Decode.bool_bool, Decode.int_int, List.append_nil]
  exact Decode.record_of_tagged (Yaml.asMap_ofMap value) (tagged_options h) hout

end Decode

section Words
variable {value : Dict Yaml} {cols : Columns} {opts : Options} {c : Column}

/-- The word of an option that is on or off. -/
def flagWord (c : Column) (b : Bool) : List Char :=
  (if b then [] else "NO".toList) ++ c.keyword.toList

theorem keyword_inj {c c' : Column} (h : c.keyword = c'.keyword) : c = c' := by
  cases c <;> cases c' <;> first | rfl | exact absurd h (by decide)

theorem setOption_flagWord (c : Column) (b : Bool) :
    setOption value (flagWord c b) = value.insert c.keyword (.bool b) := by
  have hne : c.keyword.toList ≠ [] := by cases c <;> decide
  have hno : "NO".toList.isPrefixOf c.keyword.toList = false := by cases c <;> decide
  cases b with
  | true =>
    show setOption value c.keyword.toList = _
    rw [setOption, if_neg hne, hno, if_neg Bool.false_ne_true, String.ofList_toList]
  | false =>
    have hpos : "NO".toList.isPrefixOf ('N' :: 'O' :: c.keyword.toList) = true := by simp
    show setOption value ('N' :: 'O' :: c.keyword.toList) = _
    rw [setOption, if_neg (List.cons_ne_nil _ _), if_pos hpos]
    show value.insert (String.ofList c.keyword.toList) _ = _
    rw [String.ofList_toList]

theorem get_flag (opts : Options) (h : c ≠ .rolconnlimit) : ∃ b, opts.get c = .bool b := by
  cases c with
  | rolconnlimit => exact absurd rfl h
  | _ => exact ⟨_, rfl⟩

/-- The word that `Options.String` writes for a column. -/
def wordOf (opts : Options) (c : Column) : List Char := (Clause.text (c, opts.get c)).toList

theorem wordOf_flag {b : Bool} (h : opts.get c = .bool b) : wordOf opts c = flagWord c b := by
  rw [wordOf, h, Clause.text, String.toList_append]
  cases b <;> rfl

/-- Words of options, read one after the other. -/
theorem foldl_setOption {cs : List Column} (hcs : .rolconnlimit ∉ cs) :
    (∀ k ∈ (cs.map (wordOf opts)).foldl setOption value, k ∈ value ∨ k ∈ Column.all.map Column.keyword) ∧
      ∀ c : Column, ((cs.map (wordOf opts)).foldl setOption value)[c.keyword]? =
        if c ∈ cs then some (optionYaml (opts.get c)) else value[c.keyword]? := by
  induction cs generalizing value with
  | nil => exact ⟨fun k hk => .inl hk, fun c => rfl⟩
  | cons d cs ih =>
    obtain ⟨hd, hcs⟩ := not_or.mp (mt List.mem_cons.mpr hcs)
    obtain ⟨b, hb⟩ := get_flag opts (Ne.symm hd)
    obtain ⟨hkeys, hget⟩ := @ih (value.insert d.keyword (.bool b)) hcs
    rw [List.map_cons, List.foldl_cons, wordOf_flag hb, setOption_flagWord]
    constructor
    · intro k hk
      rcases hkeys k hk with hk | hk
      · rcases Std.ExtTreeMap.mem_insert.mp hk with hk | hk
        · exact .inr (List.mem_map.mpr ⟨d, d.mem_all, by simpa using hk⟩)
        · exact .inl hk
      · exact .inr hk
    · intro c
      rw [hget c, Dict.get_insert]
      by_cases hc : c ∈ cs
      · simp [hc]
      · by_cases hcd : c = d
        · simp [hcd, hb, optionYaml]
        · have hne : d.keyword ≠ c.keyword := fun h => hcd (keyword_inj h).symm
          simp [hc, hcd, hne]

theorem mem_foldl_setOption {words : List (List Char)} {k : String}
    (h : k ∈ value ∨ k.toList ∈ words ∧ k ≠ "" ∧ "NO".toList.isPrefixOf k.toList = false) :
    k ∈ words.foldl setOption value := by
  induction words generalizing value with
  | nil => exact h.resolve_right fun h => List.not_mem_nil h.1
  | cons word words ih =>
    refine ih ?_
    rcases h with h | ⟨hk, hne, hno⟩
    · left
      unfold setOption
      split
      · exact h
      · split <;> exact Std.ExtTreeMap.mem_insert.mpr (.inr h)
    · rcases List.mem_cons.mp hk with rfl | hk
      · left
        have hword : k.toList ≠ [] := fun hnil => hne (String.toList_eq_nil_iff.mp hnil)
        rw [setOption, if_neg hword, hno, if_neg Bool.false_ne_true, String.ofList_toList]
        exact Std.ExtTreeMap.mem_insert_self
      · exact .inr ⟨hk, hne, hno⟩

theorem mem_splitOn_intercalate {w rest : List Char} (hw : ' ' ∉ w) (ws : List (List Char)) :
    w ∈ ([' '].intercalate (ws ++ [w ++ ' ' :: rest])).splitOn ' ' := by
  induction ws with
  | nil =>
    rw [List.nil_append, List.intercalate_singleton, List.splitOn_append_cons_self_of_not_mem hw]
    exact List.mem_cons_self
  | cons x ws ih =>
    rw [List.cons_append, List.intercalate_cons_of_ne_nil (by simp), List.append_assoc,
      List.singleton_append, List.splitOn_append_cons_self]
    exact List.mem_append_right _ ih

theorem toList_clausesText : (clausesText (opts.clauses cols)).toList =
    [' '].intercalate ((Column.all.filter cols).map (wordOf opts)) := by
  rw [clausesText, String.toList_intercalate, Options.clauses, List.map_map, List.map_map]
  rfl

end Words

/-- An option string, normalised and decoded. -/
def readOptions (scalars : Decode.Scalars) (o : Order) (path s : String) :
    Except Fault (Decoded Options) := do
  let value ← normalizeRoleOptions (o.sub 0) (.str s)
  return decodeOptions scalars (o.sub 1) path (.ofMap value)

section Roundtrip
variable (scalars : Decode.Scalars) (o : Order) (path : String) {cols : Columns} {opts : Options}

/-- A connection limit is three words to the reader. -/
theorem readOptions_limit (h : cols .rolconnlimit = true) (r : Decoded Options) :
    readOptions scalars o path (clausesText (opts.clauses cols)) ≠ .ok r := by
  intro hread
  obtain ⟨value, hvalue, -⟩ := bind_eq_ok.mp hread
  obtain ⟨_, hknown, hvalue⟩ := bind_eq_ok.mp hvalue
  have hall : Column.all.filter cols = (Column.all.dropLast.filter cols) ++ [.rolconnlimit] := by
    rw [← List.dropLast_append_getLast (l := Column.all) (by decide), List.filter_append]
    simp [Column.all, h]
  have hword : wordOf opts .rolconnlimit =
      "CONNECTION".toList ++ ' ' :: ("LIMIT ".toList ++ (toString opts.connLimit).toList) := by
    rw [wordOf, Options.get, Clause.text, String.toList_append, String.toList_append]
    rfl
  have hin : "CONNECTION".toList ∈ (clausesText (opts.clauses cols)).toList.splitOn ' ' := by
    rw [toList_clausesText, hall, List.map_append, List.map_singleton, hword]
    exact mem_splitOn_intercalate (by decide) _
  have hkey : "CONNECTION" ∈ ((clausesText (opts.clauses cols)).toList.splitOn ' ').foldl setOption
      defaultOptionMap := mem_foldl_setOption (.inr ⟨hin, by decide, by decide⟩)
  exact absurd (spuriousKeys_ok_iff.mp hknown _ hkey) (by decide)

/-- The options that are enabled, over the defaults. -/
def overDefaults (cols : Columns) (opts : Options) : Options where
  super := if cols .rolsuper then opts.super else unsetOptions.super
  createDB := if cols .rolcreatedb then opts.createDB else unsetOptions.createDB
  createRole := if cols .rolcreaterole then opts.createRole else unsetOptions.createRole
  inherit := if cols .rolinherit then opts.inherit else unsetOptions.inherit
  canLogin := if cols .rolcanlogin then opts.canLogin else unsetOptions.canLogin
  replication := if cols .rolreplication then opts.replication else unsetOptions.replication
  byPassRLS := if cols .rolbypassrls then opts.byPassRLS else unsetOptions.byPassRLS
  connLimit := if cols .rolconnlimit then opts.connLimit else unsetOptions.connLimit

theorem get_overDefaults (c : Column) :
    (overDefaults cols opts).get c = if cols c then opts.get c else unsetOptions.get c := by
  cases c <;> simp only [overDefaults, Options.get] <;> split <;> rfl

theorem get_defaultOptionMap (c : Column) :
    defaultOptionMap[c.keyword]? = some (optionYaml (unsetOptions.get c)) := by
  cases c <;> rfl

theorem not_mem_wordOf {c : Column} (h : c ≠ .rolconnlimit) : ' ' ∉ wordOf opts c := by
  obtain ⟨b, hb⟩ := get_flag opts h
  rw [wordOf_flag hb]
  cases c with
  | rolconnlimit => exact absurd rfl h
  | _ => cases b <;> decide

theorem foldl_words (h : cols .rolconnlimit = false) (value : Dict Yaml) :
    ((clausesText (opts.clauses cols)).toList.splitOn ' ').foldl setOption value =
      ((Column.all.filter cols).map (wordOf opts)).foldl setOption value := by
  rw [toList_clausesText]
  by_cases hnone : Column.all.filter cols = []
  · rw [hnone]
    rfl
  · rw [List.splitOn_intercalate ' ' ?_ (by simpa using hnone)]
    intro word hword
    obtain ⟨c, hc, rfl⟩ := List.mem_map.mp hword
    refine not_mem_wordOf fun he => ?_
    rw [he] at hc
    exact absurd (List.mem_filter.mp hc).2 (by simp [h])

theorem mem_defaultOptionMap {k : String} (h : k ∈ defaultOptionMap) :
    k ∈ defaultOptions.map Prod.fst := by
  rcases Dict.mem_fill.mp h with h | ⟨kv, hkv, rfl⟩
  · simp at h
  · exact List.mem_map_of_mem hkv

/-- Without it, the other options are read back. -/
theorem readOptions_flags (h : cols .rolconnlimit = false) :
    readOptions scalars o path (clausesText (opts.clauses cols)) = .ok ⟨overDefaults cols opts, []⟩ := by
  have hcs : .rolconnlimit ∉ Column.all.filter cols := fun hc =>
    absurd (List.mem_filter.mp hc).2 (by simp [h])
  obtain ⟨hkeys, hget⟩ : (∀ k ∈ ((Column.all.filter cols).map (wordOf opts)).foldl setOption
      defaultOptionMap, _) ∧ _ := foldl_setOption hcs
  rw [← foldl_words h] at hkeys hget
  have hknown : ∀ k ∈ ((clausesText (opts.clauses cols)).toList.splitOn ' ').foldl setOption
      defaultOptionMap, k ∈ defaultOptions.map Prod.fst := by
    have hkeywords : ∀ k ∈ Column.all.map Column.keyword, k ∈ defaultOptions.map Prod.fst := by decide
    intro k hk
    rcases hkeys k hk with hk | hk
    · exact mem_defaultOptionMap hk
    · exact hkeywords k hk
  have hspells : Spells (((clausesText (opts.clauses cols)).toList.splitOn ' ').foldl setOption
      defaultOptionMap) (overDefaults cols opts) := by
    refine ⟨hknown, fun c => ?_⟩
    rw [hget c, get_overDefaults, get_defaultOptionMap]
    by_cases hc : cols c = true
    · rw [if_pos (List.mem_filter.mpr ⟨c.mem_all, hc⟩), if_pos hc]
    · rw [if_neg fun hin => hc (List.mem_filter.mp hin).2, if_neg hc]
  unfold readOptions normalizeRoleOptions
  simp only [spuriousKeys_ok_iff.mpr hknown, ok_bind]
  show Except.ok _ = _
  rw [decodeOptions_eq hspells]

end Roundtrip

/-- **What an option string can express.** The text of some options is read back as these
options exactly when the connection limit is not written, and the options that are not
written have their default value. With all columns enabled it is never read. -/
theorem option_text_iff (scalars : Decode.Scalars) (o : Order) (path : String) (cols : Columns)
    (opts : Options) :
    readOptions scalars o path (clausesText (opts.clauses cols)) = .ok ⟨opts, []⟩ ↔
      cols .rolconnlimit = false ∧ ∀ c, cols c = false → opts.get c = unsetOptions.get c := by
  cases hlimit : cols .rolconnlimit with
  | true => exact iff_of_false (readOptions_limit scalars o path hlimit _) nofun
  | false =>
    rw [readOptions_flags scalars o path hlimit]
    constructor
    · intro h
      refine ⟨rfl, fun c hc => ?_⟩
      have hopts : overDefaults cols opts = opts := congrArg Decoded.value (Except.ok.inj h)
      rw [← hopts, get_overDefaults, hc]
      rfl
    · intro ⟨_, h⟩
      have hopts : overDefaults cols opts = opts := by
        refine options_ext fun c => ?_
        rw [get_overDefaults]
        cases hc : cols c with
        | true => rfl
        | false => exact (h c hc).symm
      rw [hopts]

/-- With all columns, the text of the options of a new role has a connection limit, which is
refused. -/
theorem limit_refused : clausesText (unsetOptions.clauses fun _ => true) =
      "NOSUPERUSER NOCREATEDB NOCREATEROLE INHERIT NOLOGIN NOREPLICATION NOBYPASSRLS CONNECTION LIMIT -1" ∧
    ∀ scalars o path r, readOptions scalars o path
      (clausesText (unsetOptions.clauses fun _ => true)) ≠ .ok r :=
  ⟨by decide +kernel, fun scalars o path r => readOptions_limit scalars o path rfl r⟩

end Ldap2pg.Config
