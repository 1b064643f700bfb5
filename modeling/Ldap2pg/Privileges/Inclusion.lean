import Ldap2pg.Privileges.Profile

/-! # Inclusion between profiles

A profile includes those it leads to through the names that profiles list, and
`singles` says what an item lists. Flattening gives each profile that is kept
the privileges of those it includes, and ends unless profiles include each other
in a circle. -/
namespace Ldap2pg.Privileges.Inclusion
open Lib Pyfmt Normalize

variable {m : Dict Yaml} {lists : List (String × List Yaml)} {value y : Yaml}

/-! ## What a profile lists -/

/-- The privileges that an item lists, one map for each type. A name lists none. -/
def singles (u : Strings) (item : Yaml) : List (Dict Yaml) :=
  match item.asMap with
  | none => []
  | some raw =>
    let m := rewriteDefault u raw
    (Normalize.list ((m["type"]?.or m["types"]?).getD .null)).map fun type =>
      (m.erase "types").insert "type" type

/-- The items that the section lists for a profile. -/
def rawItems (m : Dict Yaml) (name : String) : List Yaml := (m[name]?.bind Yaml.asList).getD []

theorem mem_rawItems {name : String} {item : Yaml} (h : item ∈ rawItems m name) :
    ∃ items, m[name]? = some (.list items) ∧ item ∈ items := by
  unfold rawItems at h
  cases hname : m[name]? with
  | none => rw [hname] at h; cases h
  | some value =>
    rw [hname] at h
    cases value with
    | list items => exact ⟨items, rfl, h⟩
    | _ => cases h

/-- The items of a profile of the section, with those of the built-in one of this name. -/
def listed (m : Dict Yaml) (name : String) : List Yaml :=
  Dict.listAt builtinProfiles name ++ rawItems m name

/-- The profiles that a profile names. -/
def includes (m : Dict Yaml) (name : String) : List String :=
  (listed m name).filterMap Yaml.asString

/-- A map of the normalised section. -/
structure Regular (y : Yaml) (m : Dict Yaml) : Prop where
  asMap : y.asMap = some m
  keys : ∀ k ∈ m, k ∈ ["type", "on", "object"]

/-! ## The normaliser keeps what profiles list -/

section Normalise
variable {u : Strings} {o : Order}

/-- The keys of a normalised privilege, and their values. -/
theorem normalizePrivilege_get {item : Yaml} {raw : Dict Yaml} (hraw : item.asMap = some raw)
    (h : normalizePrivilege u o item = .ok m) :
    (∀ k ∈ m, k ∈ ["types", "on", "object"]) ∧
      ∀ k : String, m[k]? =
        if k = "types" then some (.list (Normalize.list
          (((rewriteDefault u raw)["type"]?.or (rewriteDefault u raw)["types"]?).getD .null)))
        else if k = "type" then none else (rewriteDefault u raw)[k]? := by
  unfold normalizePrivilege at h
  rw [hraw] at h
  obtain ⟨renamed, hrenamed, h⟩ := bind_eq_ok.mp h
  obtain ⟨_, hkeys, h⟩ := bind_eq_ok.mp h
  cases h
  have hget := aliasKey_get hrenamed (by decide)
  refine ⟨spuriousKeys_ok_iff.mp hkeys, fun k => ?_⟩
  rw [Dict.get_insert, hget k, hget "types", if_pos rfl]
  by_cases hk : k = "types"
  · simp [hk]
  · simp [hk, Ne.symm hk]

/-- The map of one of the types. -/
theorem regular_single (hkeys : ∀ k ∈ m, k ∈ ["types", "on", "object"]) (type : Yaml) :
    Regular (.ofMap (Dict.copy ((∅ : Dict Yaml).insert "type" type) (m.erase "types")))
      (Dict.copy ((∅ : Dict Yaml).insert "type" type) (m.erase "types")) := by
  refine ⟨Yaml.asMap_ofMap _, fun k hk => ?_⟩
  obtain ⟨v, hv⟩ := Dict.mem_iff.mp hk
  rw [Dict.get_copy, Dict.get_erase, Dict.get_insert] at hv
  by_cases ht : k = "type"
  · simp [ht]
  · by_cases hts : k = "types"
    · simp [hts] at hv
    · have hin := hkeys k (Dict.mem_iff.mpr ⟨v, by simpa [Ne.symm ht, Ne.symm hts] using hv⟩)
      simpa [hts] using List.mem_cons_of_mem "type" hin

/-- An item that is not a name is a privilege. -/
theorem normalizeItem_of_ref {item : Yaml} (hitem : item.asString = none) :
    normalizeItem u o item = (do duplicatePrivilege (← normalizePrivilege u o item)) := by
  cases item with
  | str s => cases hitem
  | _ => rfl

theorem normalizeItem_ref {item : Yaml} {l : List Yaml} (hitem : item.asString = none)
    (h : normalizeItem u o item = .ok l) :
    l = (singles u item).map Yaml.ofMap ∧ ∀ m ∈ singles u item, Regular (.ofMap m) m := by
  rw [normalizeItem_of_ref hitem] at h
  obtain ⟨m, hm, hdup⟩ := bind_eq_ok.mp h
  cases hraw : item.asMap with
  | none => rw [normalizePrivilege, hraw] at hm; cases hm
  | some raw =>
    obtain ⟨hkeys, hget⟩ := normalizePrivilege_get hraw hm
    have hsingle : ∀ type, Dict.copy ((∅ : Dict Yaml).insert "type" type) (m.erase "types") =
        ((rewriteDefault u raw).erase "types").insert "type" type := by
      intro type
      refine Dict.ext_get fun k => ?_
      rw [Dict.get_copy, Dict.get_erase, Dict.get_insert, Dict.get_insert, Dict.get_erase, hget k]
      by_cases hk : k = "type"
      · simp [hk]
      · by_cases hks : k = "types"
        · simp [hks]
        · simp [hk, hks, Ne.symm hk, Ne.symm hks]
    unfold duplicatePrivilege at hdup
    rw [hget "types", if_pos rfl] at hdup
    cases hdup
    rw [singles, hraw]
    refine ⟨?_, fun single hsingles => ?_⟩
    · rw [List.map_map]
      exact List.map_congr_left fun type _ => congrArg Yaml.ofMap (hsingle type)
    · obtain ⟨type, _, rfl⟩ := List.mem_map.mp hsingles
      exact hsingle type ▸ regular_single hkeys type

/-- The list `l` has the names of `raw`, and regular maps for the privileges of `raw`. -/
structure Keeps (u : Strings) (raw l : List Yaml) : Prop where
  names : l.filterMap Yaml.asString = raw.filterMap Yaml.asString
  regular : ∀ y ∈ l, isRef y = true → ∃ m, Regular y m
  privileges : ∀ priv, (∃ y ∈ l, isRef y = true ∧ y.asMap = some priv) ↔
    ∃ item ∈ raw, priv ∈ singles u item

theorem Keeps.nil : Keeps u [] [] := ⟨rfl, nofun, fun priv => by simp⟩

theorem Keeps.append {raw l raw' l' : List Yaml} (h : Keeps u raw l) (h' : Keeps u raw' l') :
    Keeps u (raw ++ raw') (l ++ l') := by
  refine ⟨?_, fun y hy => ?_, fun priv => ?_⟩
  · rw [List.filterMap_append, List.filterMap_append, h.names, h'.names]
  · exact (List.mem_append.mp hy).elim (h.regular y) (h'.regular y)
  · simp only [List.mem_append, or_and_right, exists_or, h.privileges priv, h'.privileges priv]

theorem Keeps.name (s : String) : Keeps u [.str s] [.str s] := by
  refine ⟨rfl, fun y hy href => ?_, fun priv => ?_⟩
  · rw [List.mem_singleton.mp hy] at href
    cases href
  · simp [isRef, Yaml.asString, singles, Yaml.asMap]

theorem Keeps.item {item : Yaml} {l : List Yaml} (h : normalizeItem u o item = .ok l) :
    Keeps u [item] l := by
  cases hitem : item.asString with
  | some s =>
    cases item with
    | str s => cases h; exact .name s
    | _ => cases hitem
  | none =>
    obtain ⟨rfl, hregular⟩ := normalizeItem_ref hitem h
    refine ⟨?_, fun y hy _ => ?_, fun priv => ?_⟩
    · rw [List.filterMap_cons, hitem]
      refine List.filterMap_eq_nil_iff.mpr fun y hy => ?_
      obtain ⟨m, _, rfl⟩ := List.mem_map.mp hy
      rfl
    · obtain ⟨m, hm, rfl⟩ := List.mem_map.mp hy
      exact ⟨m, hregular m hm⟩
    · simp only [List.mem_singleton, exists_eq_left, List.mem_map]
      refine ⟨?_, fun h => ⟨.ofMap priv, ⟨priv, h, rfl⟩, rfl, Yaml.asMap_ofMap priv⟩⟩
      rintro ⟨y, ⟨m, hm, rfl⟩, _, hpriv⟩
      rw [Yaml.asMap_ofMap] at hpriv
      exact Option.some.inj hpriv ▸ hm

theorem Keeps.profile {key : String} {l : List Yaml} (h : normalizeProfile u o key value = .ok l) :
    Keeps u (value.asList.getD []) l := by
  cases value with
  | list items =>
    obtain ⟨lists, hlists, hl⟩ := bind_eq_ok.mp h
    cases hl
    clear h
    rw [mapError_eq_ok, mapM_ok_iff] at hlists
    rw [← List.zipIdx_map_fst 0 items]
    show Keeps u (items.zipIdx.map Prod.fst) lists.flatten
    generalize items.zipIdx = numbered at hlists ⊢
    induction hlists with
    | nil => exact .nil
    | cons hitem _ ih => exact (Keeps.item hitem).append ih
  | _ => cases h

theorem normalizeProfiles_of_map (hm : value.asMap = some m) :
    normalizeProfiles u o value = (do
      let lists ← normaliseAll u o m
      flattenProfiles (o.sub 2) (Dict.fill Prod.fst Prod.snd ∅ lists)) := by
  rw [normalizeProfiles, hm]

theorem normaliseAll_keeps (hlists : normaliseAll u o m = .ok lists) (name : String) :
    Keeps u (rawItems m name) (Dict.listAt (Dict.fill Prod.fst Prod.snd ∅ lists) name) := by
  -- the loop makes a row for each key
  have hrow : ∀ kl ∈ lists, Keeps u (rawItems m kl.1) kl.2 := by
    intro kl hkl
    obtain ⟨ki, hki, hbody⟩ := mem_of_mapM_ok hlists hkl
    obtain ⟨l, hl, hbody⟩ := bind_eq_ok.mp hbody
    cases hbody
    obtain ⟨v, hv⟩ := Dict.mem_keys_iff.mp (Order.mem_range.mp (List.fst_mem_of_mem_zipIdx hki))
    rw [hv] at hl
    rw [rawItems, hv]
    exact .profile hl
  have hkey : ∀ k ∈ m, ∃ kl ∈ lists, kl.1 = k := by
    intro k hk
    obtain ⟨i, hi⟩ := exists_mem_zipIdx (Order.mem_range.mpr (Std.ExtTreeMap.mem_keys.mpr hk) :
      k ∈ (o.sub 0).range m.keys)
    obtain ⟨kl, hkl, hbody⟩ := mem_mapM_ok hlists hi
    obtain ⟨l, _, hbody⟩ := bind_eq_ok.mp hbody
    cases hbody
    exact ⟨_, hkl, rfl⟩
  cases hname : (Dict.fill Prod.fst Prod.snd (∅ : Dict (List Yaml)) lists)[name]? with
  | some l =>
    rw [Dict.listAt, hname]
    rcases Dict.get_fill_cases hname with ⟨kl, hkl, rfl, rfl⟩ | h
    · exact hrow kl hkl
    · simp at h
  | none =>
    have hnot : name ∉ m := by
      intro hin
      obtain ⟨kl, hkl, rfl⟩ := hkey name hin
      exact Dict.not_mem_iff.mpr hname (Dict.mem_fill.mpr (.inr ⟨kl, hkl, rfl⟩))
    rw [Dict.listAt, hname, rawItems, Dict.not_mem_iff.mp hnot]
    exact .nil

end Normalise

/-! ## Built-in profiles -/

section Builtin
variable {u : Strings}

/-- The items of the built-in profiles. -/
inductive BuiltinItem : Yaml → Prop
  | name (s : String) : BuiltinItem (.str s)
  | privilege (type on : String) : BuiltinItem (privilegeYaml type on)
  | byDefault (type on object : String) : BuiltinItem (defaultYaml type on object)

theorem Regular.rewriteDefault (h : Regular y m) : rewriteDefault u m = m := by
  have hnone : m["default"]? = none :=
    Dict.not_mem_iff.mp fun hd => absurd (h.keys "default" hd) (by decide)
  simp [Privileges.rewriteDefault, hnone]

/-- A map with one type is one privilege. -/
theorem singles_eq {raw : Dict Yaml} {type : String} (hraw : y.asMap = some raw)
    (hm : Privileges.rewriteDefault u raw = m) (hkeys : ∀ k ∈ m, k ∈ ["type", "on", "object"])
    (htype : m["type"]? = some (.str type)) : singles u y = [m] := by
  have htypes : m["types"]? = none :=
    Dict.not_mem_iff.mp fun ht => absurd (hkeys "types" ht) (by decide)
  rw [singles, hraw]
  simp only [hm, htype, Option.some_or, Option.getD_some, Normalize.list, List.map_cons,
    List.map_nil, List.cons.injEq, and_true]
  refine Dict.ext_get fun k => ?_
  rw [Dict.get_insert, Dict.get_erase]
  by_cases hk : k = "type"
  · simp [hk, htype]
  · by_cases hks : k = "types"
    · simp [hks, htypes]
    · simp [Ne.symm hk, Ne.symm hks]

theorem Keeps.ref {type : String} (h : Regular y m) (hy : isRef y = true)
    (htype : m["type"]? = some (.str type)) : Keeps u [y] [y] := by
  have hone : singles u y = [m] := singles_eq h.asMap h.rewriteDefault h.keys htype
  refine ⟨rfl, fun y' hy' _ => List.mem_singleton.mp hy' ▸ ⟨m, h⟩, fun priv => ?_⟩
  simp only [List.mem_singleton, exists_eq_left, hone, hy, true_and, h.asMap, Option.some.injEq]
  exact eq_comm

theorem regular_entries {entries : List (String × Yaml)}
    (h : ∀ kv ∈ entries, kv.1 ∈ ["type", "on", "object"]) :
    Regular (.map entries) (Dict.fill Prod.fst Prod.snd ∅ entries) := by
  refine ⟨rfl, fun k hk => ?_⟩
  obtain ⟨v, hv⟩ := Dict.mem_iff.mp hk
  exact h (k, v) (Yaml.mem_entries rfl hv)

theorem BuiltinItem.keeps (h : BuiltinItem y) : Keeps u [y] [y] := by
  cases h with
  | name s => exact .name s
  | privilege type on =>
    have htype : (Dict.fill Prod.fst Prod.snd ∅
        [("type", Yaml.str type), ("on", .str on)])["type"]? = some (.str type) := by
      simp only [Dict.fill, List.foldl_cons, List.foldl_nil, Dict.get_insert]
      rfl
    exact .ref (regular_entries (by simp)) rfl htype
  | byDefault type on object =>
    have htype : (Dict.fill Prod.fst Prod.snd ∅ [("type", Yaml.str type), ("on", .str on),
        ("object", .str object)])["type"]? = some (.str type) := by
      simp only [Dict.fill, List.foldl_cons, List.foldl_nil, Dict.get_insert]
      rfl
    exact .ref (regular_entries (by simp)) rfl htype

theorem builtinItem_relation {cls : String} {types : List String} :
    ∀ p ∈ relationProfiles cls types, ∀ y ∈ p.2, BuiltinItem y := by
  intro p hp y hy
  rcases List.mem_append.mp hp with hp | hp
  · obtain ⟨type, _, hp⟩ := List.mem_flatMap.mp hp
    simp only [List.mem_cons, List.not_mem_nil, or_false] at hp
    rcases hp with rfl | rfl | rfl
    · simp only [List.mem_cons, List.not_mem_nil, or_false] at hy
      rcases hy with rfl | rfl <;> exact .byDefault _ _ _
    · cases List.mem_singleton.mp hy
      exact .privilege _ _
    · simp only [List.mem_cons, List.not_mem_nil, or_false] at hy
      rcases hy with rfl | rfl <;> exact .name _
  · cases List.mem_singleton.mp hp
    obtain ⟨type, _, rfl⟩ := List.mem_map.mp hy
    exact .name _

theorem builtinItem_of_mem : ∀ p ∈ builtinProfileList, ∀ y ∈ p.2, BuiltinItem y := by
  unfold builtinProfileList
  simp only [List.forall_mem_append, List.forall_mem_cons, List.not_mem_nil, IsEmpty.forall_iff,
    implies_true, and_true]
  refine ⟨⟨⟨⟨.privilege _ _, .privilege _ _, .privilege _ _, .privilege _ _, ⟨.name _, .name _⟩,
    .privilege _ _, .name _, trivial, .name _⟩, builtinItem_relation⟩, builtinItem_relation⟩,
    builtinItem_relation⟩

theorem mem_builtin {name : String} {item : Yaml} (h : item ∈ Dict.listAt builtinProfiles name) :
    ∃ p ∈ builtinProfileList, p.1 = name ∧ item ∈ p.2 := by
  unfold Dict.listAt at h
  cases hname : builtinProfiles[name]? with
  | none => rw [hname] at h; cases h
  | some l =>
    rw [hname] at h
    rcases Dict.get_fill_cases hname with ⟨p, hp, rfl, rfl⟩ | hnone
    · exact ⟨p, hp, rfl, h⟩
    · simp at hnone

theorem Keeps.builtin (name : String) :
    Keeps u (Dict.listAt builtinProfiles name) (Dict.listAt builtinProfiles name) := by
  have hall : ∀ l : List Yaml, (∀ y ∈ l, BuiltinItem y) → Keeps u l l := by
    intro l
    induction l with
    | nil => exact fun _ => .nil
    | cons y l ih =>
      intro h
      exact (h y List.mem_cons_self).keeps.append (ih fun z hz => h z (List.mem_cons_of_mem y hz))
  refine hall _ fun y hy => ?_
  obtain ⟨p, hp, _, hin⟩ := mem_builtin hy
  exact builtinItem_of_mem p hp y hin

end Builtin

/-! ## Sections without a circle -/

section Acyclic

def builtinNames : List String := builtinProfileList.map Prod.fst

theorem builtin_underscores : ∀ name ∈ builtinNames, hasPrefix name "__" = true := by
  decide +kernel

/-- The built-in profiles include those listed before them. -/
theorem builtin_ordered : ∀ p ∈ builtinProfileList, ∀ s ∈ p.2.filterMap Yaml.asString,
    builtinNames.idxOf s < builtinNames.idxOf p.1 := by decide +kernel

/-- A section that leaves the built-in profiles as they are has no circle if the other
profiles have a rank. -/
theorem acyclic_of_rank (rank : String → Nat) (hown : ∀ name ∈ m, hasPrefix name "__" = false)
    (hrank : ∀ name other, .str other ∈ rawItems m name → other ∈ builtinNames ∨ rank other < rank
    name) : Digraph.Acyclic (includes m) := by
  refine Digraph.acyclic_of_rank (fun name => if name ∈ builtinNames then builtinNames.idxOf name
    else builtinNames.length + rank name) fun name other hother => ?_
  obtain ⟨item, hitem, hname⟩ := List.mem_filterMap.mp hother
  rcases List.mem_append.mp hitem with hitem | hitem
  · obtain ⟨p, hp, rfl, hin⟩ := mem_builtin hitem
    have hlt := builtin_ordered p hp other (List.mem_filterMap.mpr ⟨item, hin, hname⟩)
    have hp₁ : p.1 ∈ builtinNames := List.mem_map_of_mem hp
    have hother : other ∈ builtinNames :=
      List.idxOf_lt_length_iff.mp (hlt.trans (List.idxOf_lt_length_of_mem hp₁))
    simpa only [hp₁, hother, if_true] using hlt
  · have hnot : name ∉ builtinNames := by
      intro h
      obtain ⟨items, hget, _⟩ := mem_rawItems hitem
      have hname := hown name (Dict.mem_iff.mpr ⟨_, hget⟩)
      rw [builtin_underscores name h] at hname
      cases hname
    have hraw : .str other ∈ rawItems m name := by
      cases item with
      | str s => cases hname; exact hitem
      | _ => cases hname
    rw [if_neg hnot]
    by_cases hbuiltin : other ∈ builtinNames
    · rw [if_pos hbuiltin]
      exact (List.idxOf_lt_length_of_mem hbuiltin).trans_le (Nat.le_add_right _ _)
    · rw [if_neg hbuiltin]
      exact Nat.add_lt_add_left ((hrank name other hraw).resolve_left hbuiltin) _

end Acyclic

/-! ## Profiles that are refused -/

section Accepted
variable {u : Strings} {o : Order}

/-- An item is a name, or a map that has the keys of a privilege. -/
def ItemAccepted (u : Strings) (item : Yaml) : Prop :=
  item.asString = none → ∃ raw, item.asMap = some raw ∧
    ¬ ("type" ∈ rewriteDefault u raw ∧ "types" ∈ rewriteDefault u raw) ∧
    ∀ k ∈ rewriteDefault u raw, k ∈ ["type", "types", "on", "object"]

def ProfileAccepted (u : Strings) (value : Yaml) : Prop :=
  ∃ items, value = .list items ∧ ∀ item ∈ items, ItemAccepted u item

theorem Regular.accepted (h : Regular y m) : ItemAccepted u y := by
  refine fun _ => ⟨m, h.asMap, ?_, fun k hk => ?_⟩
  · rw [h.rewriteDefault]
    exact fun ⟨_, htypes⟩ => absurd (h.keys "types" htypes) (by decide)
  · rw [h.rewriteDefault] at hk
    have hin := h.keys k hk
    simp only [List.mem_cons, List.not_mem_nil, or_false] at hin
    rcases hin with rfl | rfl | rfl <;> simp

theorem normalizePrivilege_returns {item : Yaml} : Returns (normalizePrivilege u o item) := by
  unfold normalizePrivilege
  split
  · exact .error _
  · exact aliasKey_returns.bind fun _ _ => spuriousKeys_returns.bind fun _ _ => .ok _

theorem duplicatePrivilege_ok {item : Yaml} (h : normalizePrivilege u o item = .ok m) :
    ∃ l, duplicatePrivilege m = .ok l := by
  cases hraw : item.asMap with
  | none => rw [normalizePrivilege, hraw] at h; cases h
  | some raw =>
    rw [duplicatePrivilege, (normalizePrivilege_get hraw h).2 "types", if_pos rfl]
    exact ⟨_, rfl⟩

theorem normalizeItem_returns {item : Yaml} : Returns (normalizeItem u o item) := by
  cases hitem : item.asString with
  | some s =>
    cases item with
    | str s => exact .ok _
    | _ => cases hitem
  | none =>
    rw [normalizeItem_of_ref hitem]
    refine normalizePrivilege_returns.bind fun m hm => ?_
    obtain ⟨l, hl⟩ := duplicatePrivilege_ok hm
    exact hl ▸ .ok l

theorem normalizeProfile_returns {key : String} : Returns (normalizeProfile u o key value) := by
  unfold normalizeProfile
  split
  · exact .error _
  · exact ((Returns.mapM fun _ _ => normalizeItem_returns).wrap key).bind fun _ _ => .ok _
  · exact .error _

/-- The keys of a privilege, once `type` is renamed and `types` is a list. -/
theorem normalizePrivilege_ok_iff {item : Yaml} : (∃ m, normalizePrivilege u o item = .ok m) ↔
    ∃ raw, item.asMap = some raw ∧
      ¬ ("type" ∈ rewriteDefault u raw ∧ "types" ∈ rewriteDefault u raw) ∧
      ∀ k ∈ rewriteDefault u raw, k ∈ ["type", "types", "on", "object"] := by
  cases hraw : item.asMap with
  | none => simp [normalizePrivilege, hraw]
  | some raw =>
    have hpeel : (∃ m, normalizePrivilege u o item = .ok m) ↔
        ∃ renamed, aliasKey (rewriteDefault u raw) "types" "type" = .ok renamed ∧
          ∀ k ∈ renamed.insert "types" (.list (Normalize.list (renamed["types"]?.getD .null))),
            k ∈ ["types", "on", "object"] := by
      rw [normalizePrivilege, hraw]
      refine ⟨fun ⟨m, h⟩ => ?_, fun ⟨renamed, hrenamed, hkeys⟩ => ?_⟩
      · obtain ⟨renamed, hrenamed, h⟩ := bind_eq_ok.mp h
        obtain ⟨_, hkeys, _⟩ := bind_eq_ok.mp h
        exact ⟨renamed, hrenamed, spuriousKeys_ok_iff.mp hkeys⟩
      · exact ⟨_, bind_eq_ok.mpr ⟨renamed, hrenamed, bind_eq_ok.mpr
          ⟨(), spuriousKeys_ok_iff.mpr hkeys, rfl⟩⟩⟩
    rw [hpeel]
    simp only [Option.some.injEq, exists_eq_left']
    refine ⟨fun ⟨renamed, hrenamed, hkeys⟩ => ⟨aliasKey_ok_iff.mp ⟨renamed, hrenamed⟩, ?_⟩, ?_⟩
    · intro k hk
      by_cases htype : k = "type"
      · simp [htype]
      · have hin : k ∈ renamed :=
          (mem_aliasKey hrenamed (by decide)).mpr (.inl ⟨htype, hk⟩)
        exact List.mem_cons_of_mem "type" (hkeys k (Std.ExtTreeMap.mem_insert.mpr (.inr hin)))
    · rintro ⟨hone, hkeys⟩
      obtain ⟨renamed, hrenamed⟩ := aliasKey_ok_iff.mpr hone
      refine ⟨renamed, hrenamed, fun k hk => ?_⟩
      rcases Std.ExtTreeMap.mem_insert.mp hk with hk | hk
      · simp [← Std.LawfulEqCmp.eq_of_compare hk]
      · rcases (mem_aliasKey hrenamed (by decide)).mp hk with ⟨htype, hk⟩ | ⟨rfl, _⟩
        · exact (List.mem_cons.mp (hkeys k hk)).resolve_left htype
        · simp

theorem normalizeItem_ok_iff {item : Yaml} :
    (∃ l, normalizeItem u o item = .ok l) ↔ ItemAccepted u item := by
  cases hitem : item.asString with
  | some s =>
    refine iff_of_true ?_ fun hnone => by simp [hitem] at hnone
    cases item with
    | str s => exact ⟨_, rfl⟩
    | _ => cases hitem
  | none =>
    rw [normalizeItem_of_ref hitem, ItemAccepted, imp_iff_right hitem,
      ← normalizePrivilege_ok_iff (o := o)]
    refine ⟨fun ⟨l, h⟩ => ?_, fun ⟨m, h⟩ => ?_⟩
    · obtain ⟨m, hm, _⟩ := bind_eq_ok.mp h
      exact ⟨m, hm⟩
    · obtain ⟨l, hl⟩ := duplicatePrivilege_ok h
      exact ⟨l, bind_eq_ok.mpr ⟨m, h, hl⟩⟩

theorem normalizeProfile_ok_iff {key : String} :
    (∃ l, normalizeProfile u o key value = .ok l) ↔ ProfileAccepted u value := by
  cases value with
  | list items =>
    refine ⟨fun ⟨l, h⟩ => ⟨items, rfl, fun item hitem => ?_⟩, ?_⟩
    · obtain ⟨lists, hlists, _⟩ := bind_eq_ok.mp h
      obtain ⟨i, hi⟩ := exists_mem_zipIdx hitem
      obtain ⟨out, _, hout⟩ := mem_mapM_ok (mapError_eq_ok.mp hlists) hi
      exact normalizeItem_ok_iff.mp ⟨out, hout⟩
    · rintro ⟨_, hitems, haccepted⟩
      cases hitems
      obtain ⟨lists, hlists⟩ := exists_mapM_ok (l := items.zipIdx)
        (f := fun xi => normalizeItem u (o.sub xi.2) xi.1) fun xi hxi =>
          normalizeItem_ok_iff.mpr (haccepted xi.1 (List.fst_mem_of_mem_zipIdx hxi))
      exact ⟨_, bind_eq_ok.mpr ⟨lists, mapError_eq_ok.mpr hlists, rfl⟩⟩
  | _ =>
    refine iff_of_false ?_ ?_
    · rintro ⟨l, h⟩
      cases h
    · rintro ⟨items, h, _⟩
      cases h

theorem normaliseAll_returns : Returns (normaliseAll u o m) :=
  .mapM fun _ _ => normalizeProfile_returns.bind fun _ _ => .ok _

theorem normaliseAll_ok_iff : (∃ lists, normaliseAll u o m = .ok lists) ↔
    ∀ (name : String) (value : Yaml), m[name]? = some value → ProfileAccepted u value := by
  refine ⟨fun ⟨lists, h⟩ name value hvalue => ?_, fun h => exists_mapM_ok fun ki hki => ?_⟩
  · obtain ⟨i, hi⟩ := exists_mem_zipIdx (Order.mem_range.mpr (Dict.mem_keys_iff.mpr ⟨value, hvalue⟩) :
      name ∈ (o.sub 0).range m.keys)
    obtain ⟨kl, _, hbody⟩ := mem_mapM_ok h hi
    obtain ⟨l, hl, _⟩ := bind_eq_ok.mp hbody
    rw [hvalue] at hl
    exact normalizeProfile_ok_iff.mp ⟨l, hl⟩
  · obtain ⟨value, hvalue⟩ :=
      Dict.mem_keys_iff.mp (Order.mem_range.mp (List.fst_mem_of_mem_zipIdx hki))
    obtain ⟨l, hl⟩ := normalizeProfile_ok_iff.mpr (h ki.1 value hvalue)
    exact ⟨_, bind_eq_ok.mpr ⟨l, by rw [hvalue]; exact hl, rfl⟩⟩

end Accepted

/-! ## Inclusion -/

section Inclusion
variable {u : Strings} {o : Order} {value : Yaml} {m : Dict Yaml}

/-- A profile includes itself and what those it names include. -/
def Includes (m : Dict Yaml) : String → String → Prop :=
  Relation.ReflTransGen (Digraph.Edge (includes m))

theorem keeps_items (h : normaliseAll u o m = .ok lists) (name : String) :
    Keeps u (listed m name) (itemsOf (Dict.fill Prod.fst Prod.snd ∅ lists) name) :=
  (Keeps.builtin name).append (normaliseAll_keeps h name)

theorem inclusionsOf_eq (h : normaliseAll u o m = .ok lists) :
    inclusionsOf (Dict.fill Prod.fst Prod.snd ∅ lists) = includes m :=
  funext fun name => (keeps_items h name).names

theorem overflows_of_cycle (hm : value.asMap = some m)
    (h : ∀ (name : String) (profile : Yaml), m[name]? = some profile → ProfileAccepted u profile)
    (hcycle : ¬ Digraph.Acyclic (includes m)) :
    normalizeProfiles u o value = .error .stackOverflow := by
  obtain ⟨lists, hlists⟩ := (normaliseAll_ok_iff (o := o)).mpr h
  rw [normalizeProfiles_of_map hm, hlists]
  exact flattenProfiles_error_iff.mpr ⟨rfl, inclusionsOf_eq hlists ▸ hcycle⟩

theorem exists_flat (hm : value.asMap = some m)
    (h : ∀ (name : String) (profile : Yaml), m[name]? = some profile → ProfileAccepted u profile)
    (hacyclic : Digraph.Acyclic (includes m)) : ∃ flat, normalizeProfiles u o value = .ok flat := by
  obtain ⟨lists, hlists⟩ := (normaliseAll_ok_iff (o := o)).mpr h
  cases hflat : normalizeProfiles u o value with
  | ok flat => exact ⟨flat, rfl⟩
  | error fault =>
    rw [normalizeProfiles_of_map hm, hlists] at hflat
    obtain ⟨_, hcycle⟩ := flattenProfiles_error_iff.mp hflat
    rw [inclusionsOf_eq hlists] at hcycle
    exact absurd hacyclic hcycle

theorem acyclic_of_ok (hm : value.asMap = some m) {flat : Dict (List Yaml)}
    (h : normalizeProfiles u o value = .ok flat) : Digraph.Acyclic (includes m) := by
  rw [normalizeProfiles_of_map hm] at h
  obtain ⟨lists, hlists, hflat⟩ := bind_eq_ok.mp h
  by_contra hcycle
  rw [flattenProfiles_error_iff.mpr ⟨rfl, inclusionsOf_eq hlists ▸ hcycle⟩] at hflat
  cases hflat

/-- The maps of a profile that is kept, and the privileges they stand for. -/
theorem mem_flat (hm : value.asMap = some m) {flat : Dict (List Yaml)}
    (h : normalizeProfiles u o value = .ok flat) (name : String) :
    (∀ item ∈ Dict.listAt flat name, item.asString = none ∧ ∃ priv, Regular item priv) ∧
      ∀ priv : Dict Yaml, (∃ item ∈ Dict.listAt flat name, item.asMap = some priv) ↔
        hasPrefix name "__" = false ∧
          ∃ q, Includes m name q ∧ ∃ item ∈ listed m q, priv ∈ singles u item := by
  have hacyclic := acyclic_of_ok hm h
  rw [normalizeProfiles_of_map hm] at h
  obtain ⟨lists, hlists, hflat⟩ := bind_eq_ok.mp h
  rw [← inclusionsOf_eq hlists] at hacyclic
  have hmem : ∀ item, item ∈ Dict.listAt flat name ↔ _ :=
    fun item => mem_flattenProfiles hacyclic hflat
  rw [inclusionsOf_eq hlists] at hmem
  refine ⟨fun item hitem => ?_, fun priv => ⟨?_, ?_⟩⟩
  · obtain ⟨_, q, _, hq⟩ := (hmem item).mp hitem
    obtain ⟨hin, href⟩ := List.mem_filter.mp hq
    exact ⟨Option.isNone_iff_eq_none.mp href, (keeps_items hlists q).regular item hin href⟩
  · rintro ⟨item, hitem, hpriv⟩
    obtain ⟨hkept, q, hreach, hq⟩ := (hmem item).mp hitem
    obtain ⟨hin, href⟩ := List.mem_filter.mp hq
    exact ⟨hkept, q, hreach, ((keeps_items hlists q).privileges priv).mp ⟨item, hin, href, hpriv⟩⟩
  · rintro ⟨hkept, q, hreach, hq⟩
    obtain ⟨item, hin, href, hpriv⟩ := ((keeps_items hlists q).privileges priv).mpr hq
    exact ⟨item, (hmem item).mpr ⟨hkept, q, hreach, List.mem_filter.mpr ⟨hin, href⟩⟩, hpriv⟩

/-- A section with a circle does not return only if it is otherwise accepted. -/
theorem returns_of_acyclic (hm : value.asMap = some m)
    (h : (∀ (name : String) (profile : Yaml), m[name]? = some profile → ProfileAccepted u profile) →
      Digraph.Acyclic (includes m)) : Returns (normalizeProfiles u o value) := by
  rw [normalizeProfiles_of_map hm]
  refine normaliseAll_returns.bind fun lists hlists fault hfault => ?_
  obtain ⟨_, hcycle⟩ := flattenProfiles_error_iff.mp hfault
  rw [inclusionsOf_eq hlists] at hcycle
  exact absurd (h (normaliseAll_ok_iff.mp ⟨lists, hlists⟩)) hcycle

/-- **`NormalizeProfiles` ends exactly when no chain of inclusions comes back.** With a
circle in a section that is otherwise accepted, `walkOne` never comes back. -/
theorem normalizeProfiles_returns_iff (u : Strings) (o : Order) (value : Yaml) :
    Returns (normalizeProfiles u o value) ↔ ∀ m, value.asMap = some m →
      (∀ (name : String) (profile : Yaml), m[name]? = some profile → ProfileAccepted u profile) →
        Digraph.Acyclic (includes m) := by
  cases hm : value.asMap with
  | none =>
    rw [normalizeProfiles, hm]
    exact iff_of_true (.error _) nofun
  | some m =>
    simp only [Option.some.injEq, forall_eq']
    refine ⟨fun h haccepted => ?_, returns_of_acyclic hm⟩
    by_contra hcycle
    obtain ⟨err, herr⟩ := h _ (overflows_of_cycle hm haccepted hcycle)
    cases herr

def sampleStrings : Strings where
  toLower := id
  toUpper := String.toUpper
  equalFold := (· == ·)
  toLower_letters := id_letters

/-- Two profiles that include each other. -/
def circle : Yaml := .map [("reader", .list [.str "writer"]), ("writer", .list [.str "reader"])]

theorem circle_overflows :
    normalizeProfiles sampleStrings Order.sorted circle = .error .stackOverflow := by
  obtain ⟨m, hm⟩ : ∃ m, circle.asMap = some m := ⟨_, rfl⟩
  have hget : m["reader"]? = some (.list [.str "writer"]) ∧
      m["writer"]? = some (.list [.str "reader"]) := by
    cases hm
    simp only [Dict.fill, List.foldl_cons, List.foldl_nil, Dict.get_insert]
    exact ⟨rfl, rfl⟩
  refine overflows_of_cycle hm (fun name profile h => ?_) fun hacyclic => ?_
  · have hname : ∀ s : String, ProfileAccepted sampleStrings (.list [.str s]) := by
      intro s
      refine ⟨_, rfl, fun item hitem hnone => ?_⟩
      cases List.mem_singleton.mp hitem
      cases hnone
    have hentry := Yaml.mem_entries hm h
    simp only [List.mem_cons, List.not_mem_nil, or_false, Prod.mk.injEq] at hentry
    rcases hentry with ⟨_, rfl⟩ | ⟨_, rfl⟩ <;> exact hname _
  · have hedge : ∀ name other : String, m[name]? = some (.list [.str other]) →
        Digraph.Edge (includes m) name other := by
      intro name other h
      refine List.mem_filterMap.mpr ⟨.str other, List.mem_append_right _ ?_, rfl⟩
      rw [rawItems, h]
      exact List.mem_singleton_self _
    exact hacyclic "reader" (.tail (.single (hedge _ _ hget.1)) (hedge _ _ hget.2))

/-- **A profile has the privileges of all that it includes**, and nothing else: no name is left,
each item is the map of a privilege. -/
theorem flat_profile_closure (u : Strings) (o : Order) {value : Yaml} {m : Dict Yaml}
    (hm : value.asMap = some m) (hacyclic : Digraph.Acyclic (includes m)) :
    ((∀ (name : String) (profile : Yaml), m[name]? = some profile → ProfileAccepted u profile) →
      ∃ flat, normalizeProfiles u o value = .ok flat) ∧
    ∀ flat, normalizeProfiles u o value = .ok flat →
      ∀ (p : String) (items : List Yaml), flat[p]? = some items →
        (∀ item ∈ items, item.asString = none ∧ ∃ priv, Regular item priv) ∧
        ∀ priv : Dict Yaml, (∃ item ∈ items, item.asMap = some priv) ↔
          ∃ q, Includes m p q ∧ ∃ item ∈ listed m q, priv ∈ singles u item := by
  refine ⟨fun haccepted => exists_flat hm haccepted hacyclic, fun flat h p items hp => ?_⟩
  · have hitems : Dict.listAt flat p = items := by rw [Dict.listAt, hp]; rfl
    obtain ⟨hregular, hprivs⟩ := mem_flat hm h p
    rw [hitems] at hregular hprivs
    refine ⟨hregular, fun priv => ?_⟩
    rw [hprivs priv, and_iff_right]
    rw [normalizeProfiles_of_map hm] at h
    obtain ⟨lists, _, hflat⟩ := bind_eq_ok.mp h
    exact kept_of_mem hflat (Dict.mem_iff.mpr ⟨items, hp⟩)

/-- `types: [CONNECT, TEMPORARY]` on the database. -/
def connect : Yaml :=
  .map [("types", .list [.str "CONNECT", .str "TEMPORARY"]), ("on", .str "DATABASE")]

/-- A profile that includes another one and a built-in one. -/
def nested : Yaml := .map
  [("reader", .list [.str "base", .str "__select_on_tables__"]), ("base", .list [connect])]

theorem nested_acyclic {m : Dict Yaml} (hm : nested.asMap = some m) :
    Digraph.Acyclic (includes m) := by
  refine acyclic_of_rank (fun name => if name = "reader" then 1 else 0) ?_ ?_
  · intro name hname
    obtain ⟨v, hv⟩ := Dict.mem_iff.mp hname
    have hentry := Yaml.mem_entries hm hv
    simp only [List.mem_cons, List.not_mem_nil, or_false, Prod.mk.injEq] at hentry
    rcases hentry with ⟨rfl, _⟩ | ⟨rfl, _⟩ <;> decide
  · intro name other hother
    obtain ⟨items, hget, hin⟩ := mem_rawItems hother
    have hentry := Yaml.mem_entries hm hget
    simp only [List.mem_cons, List.not_mem_nil, or_false, Prod.mk.injEq, Yaml.list.injEq] at hentry
    rcases hentry with ⟨rfl, rfl⟩ | ⟨rfl, rfl⟩
    · simp only [List.mem_cons, List.not_mem_nil, or_false, Yaml.str.injEq] at hin
      rcases hin with rfl | rfl
      · exact .inr (by decide)
      · exact .inl (by decide +kernel)
    · cases List.mem_singleton.mp hin

/-- The map of `TEMPORARY` on the database. -/
def temporary : Dict Yaml :=
  ((∅ : Dict Yaml).insert "type" (.str "TEMPORARY")).insert "on" (.str "DATABASE")

theorem connect_listed : ItemAccepted sampleStrings connect ∧
    temporary ∈ singles sampleStrings connect := by
  obtain ⟨raw, hraw⟩ : ∃ raw, connect.asMap = some raw := ⟨_, rfl⟩
  have hget : ∀ k : String, raw[k]? = if "on" = k then some (.str "DATABASE")
      else if "types" = k then some (.list [.str "CONNECT", .str "TEMPORARY"]) else none := by
    intro k
    cases hraw
    simp only [Dict.fill, List.foldl_cons, List.foldl_nil, Dict.get_insert, Dict.get_empty]
  have hdefault : rewriteDefault sampleStrings raw = raw := by
    simp [rewriteDefault, hget]
  refine ⟨fun _ => ⟨raw, hraw, ?_, fun k hk => ?_⟩, ?_⟩
  · simp [hdefault, Dict.mem_iff, hget]
  · obtain ⟨v, hv⟩ := Dict.mem_iff.mp (hdefault ▸ hk)
    rw [hget] at hv
    split at hv
    · next h => simp [← h]
    · split at hv
      · next h => simp [← h]
      · cases hv
  · rw [singles, hraw]
    refine List.mem_map.mpr ⟨.str "TEMPORARY", ?_, Dict.ext_get fun k => ?_⟩
    · simp [hdefault, hget, Normalize.list]
    · rw [hdefault, temporary, Dict.get_insert, Dict.get_erase, hget, Dict.get_insert,
        Dict.get_insert, Dict.get_empty]
      by_cases hon : "on" = k
      · subst hon
        simp
      · by_cases htypes : "types" = k
        · subst htypes
          simp
        · simp [hon, htypes]

theorem nested_has_temporary : ∃ flat items,
    normalizeProfiles sampleStrings Order.sorted nested = .ok flat ∧
      flat["reader"]? = some items ∧ ∃ item ∈ items, item.asMap = some temporary := by
  obtain ⟨m, hm⟩ : ∃ m, nested.asMap = some m := ⟨_, rfl⟩
  have hget : m["reader"]? = some (.list [.str "base", .str "__select_on_tables__"]) ∧
      m["base"]? = some (.list [connect]) := by
    cases hm
    simp only [Dict.fill, List.foldl_cons, List.foldl_nil, Dict.get_insert]
    exact ⟨rfl, rfl⟩
  have haccepted : ∀ (name : String) (profile : Yaml), m[name]? = some profile →
      ProfileAccepted sampleStrings profile := by
    intro name profile h
    have hentry := Yaml.mem_entries hm h
    simp only [List.mem_cons, List.not_mem_nil, or_false, Prod.mk.injEq] at hentry
    rcases hentry with ⟨_, rfl⟩ | ⟨_, rfl⟩
    · refine ⟨_, rfl, fun item hitem hnone => ?_⟩
      simp only [List.mem_cons, List.not_mem_nil, or_false] at hitem
      rcases hitem with rfl | rfl <;> cases hnone
    · exact ⟨_, rfl, fun item hitem => List.mem_singleton.mp hitem ▸ connect_listed.1⟩
  have hincluded : ∃ q, Includes m "reader" q ∧
      ∃ item ∈ listed m q, temporary ∈ singles sampleStrings item := by
    refine ⟨"base", .single ?_, connect, List.mem_append_right _ ?_, connect_listed.2⟩
    · refine List.mem_filterMap.mpr ⟨.str "base", List.mem_append_right _ ?_, rfl⟩
      rw [rawItems, hget.1]
      exact List.mem_cons_self
    · rw [rawItems, hget.2]
      exact List.mem_cons_self
  obtain ⟨hreturns, hclosure⟩ :=
    flat_profile_closure sampleStrings Order.sorted hm (nested_acyclic hm)
  obtain ⟨flat, hflat⟩ := hreturns haccepted
  obtain ⟨item, hitem, _⟩ := ((mem_flat hm hflat "reader").2 temporary).mpr ⟨by decide, hincluded⟩
  obtain ⟨items, hitems⟩ := Dict.mem_iff.mp (Dict.mem_of_mem_listAt hitem)
  exact ⟨flat, items, hflat, hitems, ((hclosure flat hflat "reader" items hitems).2 temporary).mpr
    hincluded⟩

end Inclusion

end Ldap2pg.Privileges.Inclusion
