import Ldap2pg.Lib.Decode
import Ldap2pg.Normalize
import Ldap2pg.Tree
import Ldap2pg.Privileges.Builtin

/-! # Profiles, from the `privileges` section to the managed ACLs

A profile lists privileges and names of profiles it includes. Inclusions are
resolved along `tree.Walk`, with the built-in profiles, and profiles whose name
starts with two underscores are dropped. What is left is registered: every type
of privilege goes to `managedACLs`, coupled with its object for default
privileges. -/
namespace Ldap2pg.Privileges
open Lib Pyfmt Normalize

/-! ## The normaliser -/

/-- The rewrite of the syntax of 6.2, when there is a `default`. -/
def rewriteDefault (u : Strings) (m : Dict Yaml) : Dict Yaml :=
  let default := (m["default"]?.bind Yaml.asString).getD ""
  if default = "" then m
  else ((m.insert "object" (m["type"]?.getD .null)).insert "on"
    (.str (u.toUpper default ++ " DEFAULT"))).erase "default"

/-- `NormalizePrivilege`. -/
def normalizePrivilege (u : Strings) (o : Order) (rawPrivilege : Yaml) :
    Except Fault (Dict Yaml) :=
  match rawPrivilege.asMap with
  | none => .error (.error "bad type")
  | some m => do
    let m ← aliasKey (rewriteDefault u m) "types" "type"
    let m := m.insert "types" (.list (Normalize.list (m["types"]?.getD .null)))
    spuriousKeys o m ["types", "on", "object"]
    return m

/-- `DuplicatePrivilege`: one map for each type. -/
def duplicatePrivilege (yaml : Dict Yaml) : Except Fault (List Yaml) :=
  let types := yaml["types"]?.getD .null
  match types with
  | .list types => .ok (types.map fun singleType =>
      .ofMap (Dict.copy ((∅ : Dict Yaml).insert "type" singleType) (yaml.erase "types")))
  | types => .error (.assertion types.typeName "[]interface \x7b\x7d")

/-- One item of a profile: the name of a profile to include, or a privilege. -/
def normalizeItem (u : Strings) (o : Order) (item : Yaml) : Except Fault (List Yaml) :=
  match item with
  | .str s => .ok [.str s]
  | item => do duplicatePrivilege (← normalizePrivilege u o item)

def normalizeProfile (u : Strings) (o : Order) (key : String) (value : Yaml) :
    Except Fault (List Yaml) :=
  match value with
  | .null => .error (.error (" " ++ key ++ " is nil"))
  | .list items => do
    let lists ← (items.zipIdx.mapM fun xi => normalizeItem u (o.sub xi.2) xi.1).mapError
      (Fault.wrap key)
    return lists.flatten
  | _ => .error (.error (" " ++ key ++ " is not a list"))

/-- What the profiles include, and what they list themselves. -/
structure Refs where
  heritance : Dict (List String) := ∅
  refMap : Dict (List Yaml) := ∅

def Refs.copyItem (key : String) (refs : Refs) : Yaml → Refs
  | .str s =>
    { refs with heritance := refs.heritance.insert key (Dict.listAt refs.heritance key ++ [s]) }
  | item => { refs with refMap := refs.refMap.insert key (Dict.listAt refs.refMap key ++ [item]) }

/-- `copyRefs`. -/
def Refs.copyRefs (o : Order) (refs : Refs) (profiles : Dict (List Yaml)) : Refs :=
  (o.range profiles.keys).foldl
    (fun refs key => (Dict.listAt profiles key).foldl (copyItem key) refs) refs

/-- `refMap[priv] = append(refMap[priv], refMap[parent]...)`, for each parent. -/
def inherit (heritance : Dict (List String)) (refMap : Dict (List Yaml)) (priv : String) :
    Dict (List Yaml) :=
  (Tree.parents heritance priv).foldl
    (fun refMap parent =>
      refMap.insert priv (Dict.listAt refMap priv ++ Dict.listAt refMap parent)) refMap

/-- `strings.HasPrefix`. -/
def hasPrefix (s start : String) : Bool := start.toList.isPrefixOf s.toList

/-! ## The built-in profiles -/

def privilegeYaml (type on : String) : Yaml := .map [("type", .str type), ("on", .str on)]

def defaultYaml (type on object : String) : Yaml :=
  .map [("type", .str type), ("on", .str on), ("object", .str object)]

/-- `registerRelationBuiltinProfile`. -/
def relationProfiles (cls : String) (types : List String) : List (String × List Yaml) :=
  let upper := cls.toUpper
  types.flatMap (fun type =>
    [("__default_" ++ type ++ "_on_" ++ cls ++ "__",
      [defaultYaml type.toUpper "GLOBAL DEFAULT" upper, defaultYaml type.toUpper "SCHEMA DEFAULT" upper]),
     ("__" ++ type ++ "_on_all_" ++ cls ++ "__",
      [privilegeYaml type.toUpper ("ALL " ++ upper ++ " IN SCHEMA")]),
     ("__" ++ type ++ "_on_" ++ cls ++ "__",
      [.str ("__default_" ++ type ++ "_on_" ++ cls ++ "__"),
       .str ("__" ++ type ++ "_on_all_" ++ cls ++ "__")])]) ++
  [("__all_on_" ++ cls ++ "__", types.map fun type => .str ("__" ++ type ++ "_on_" ++ cls ++ "__"))]

/-- `BuiltinsProfiles`, after `init`. -/
def builtinProfileList : List (String × List Yaml) :=
  [("__connect__", [privilegeYaml "CONNECT" "DATABASE"]),
   ("__temporary__", [privilegeYaml "TEMPORARY" "DATABASE"]),
   ("__create_on_schemas__", [privilegeYaml "CREATE" "SCHEMA"]),
   ("__usage_on_schemas__", [privilegeYaml "USAGE" "SCHEMA"]),
   ("__all_on_schemas__", [.str "__create_on_schemas__", .str "__usage_on_schemas__"]),
   ("__execute_on_all_functions__", [privilegeYaml "EXECUTE" "ALL FUNCTIONS IN SCHEMA"]),
   ("__execute_on_functions__", [.str "__execute_on_all_functions__"]),
   ("__default_execute_on_functions__", []),
   ("__all_on_functions__", [.str "__execute_on_functions__"])] ++
  relationProfiles "sequences" ["select", "update", "usage"] ++
  relationProfiles "tables"
    ["delete", "insert", "select", "truncate", "update", "references", "trigger"] ++
  relationProfiles "routines" ["execute"]

def builtinProfiles : Dict (List Yaml) := Dict.fill Prod.fst Prod.snd ∅ builtinProfileList

/-- `flattenProfiles`. -/
def flattenProfiles (o : Order) (value : Dict (List Yaml)) : Except Fault (Dict (List Yaml)) :=
  let refs := (Refs.copyRefs (o.sub 0) {} builtinProfiles).copyRefs (o.sub 1) value
  match Tree.walk refs.heritance with
  | none => .error .stackOverflow
  | some order => .ok ((order.foldl (inherit refs.heritance) refs.refMap).filter
      fun key _ => !hasPrefix key "__")

/-- The loop of `NormalizeProfiles`. -/
def normaliseAll (u : Strings) (o : Order) (m : Dict Yaml) : Except Fault (List (String × List Yaml)) :=
  ((o.sub 0).range m.keys).zipIdx.mapM fun ki => do
    let list ← normalizeProfile u ((o.sub 1).sub ki.2) ki.1 (m[ki.1]?.getD .null)
    return (ki.1, list)

/-- `NormalizeProfiles`. -/
def normalizeProfiles (u : Strings) (o : Order) (value : Yaml) : Except Fault (Dict (List Yaml)) :=
  match value.asMap with
  | none => .error (.error "bad type")
  | some m => do
    let lists ← normaliseAll u o m
    flattenProfiles (o.sub 2) (Dict.fill Prod.fst Prod.snd ∅ lists)

/-! ## Decoding and registration -/

def decodePrivilege (scalars : Decode.Scalars) : Decoder Privilege := Decode.record ⟨"", "", ""⟩
  [Decode.field "Type" (Decode.string scalars) fun type p => { p with type },
   Decode.field "On" (Decode.string scalars) fun on p => { p with on },
   Decode.field "Object" (Decode.string scalars) fun object p => { p with object }]

/-- What `DecodeYaml` does with the normalised section. -/
def decodeProfiles (scalars : Decode.Scalars) (o : Order) (profiles : Dict (List Yaml)) :
    Decoded (Dict (List Privilege)) :=
  Decode.dict (Decode.list (decodePrivilege scalars)) o "privileges"
    (.ofMap (profiles.map fun _ items => .list items))

/-- What goes to `managedACLs` for a privilege: the type, with the object for default
privileges. -/
def ACL.entry (a : ACL) (type object : String) : String :=
  if a.uses "owner" then type ++ " ON " ++ object else type

/-- The body of the loop of `Profile.Register`. -/
def Registry.registerPrivilege (st : Registry × List String) (priv : Privilege) :
    Registry × List String :=
  match st.1.acls[priv.on]? with
  | none => (st.1, st.2 ++ ["ACL " ++ priv.on ++ " not found"])
  | some a =>
    let types := Dict.listAt st.1.managedACLs priv.on ++ [a.entry priv.type priv.object]
    ({ st.1 with managedACLs := st.1.managedACLs.insert priv.on types }, st.2)

/-- `Profile.Register`. -/
def Registry.registerProfile (reg : Registry) (name : String) (p : List Privilege) :
    Registry × List String :=
  let st := p.foldl registerPrivilege (reg, [])
  ({ st.1 with profiles := st.1.profiles.insert name p }, st.2)

/-- The loop of `RegisterPrivileges` over profiles. -/
def Registry.registerProfiles (o : Order) (reg : Registry) (profiles : Dict (List Privilege)) :
    Except String Registry :=
  (o.range profiles.keys).foldlM (fun reg name =>
    let st := reg.registerProfile name (Dict.listAt profiles name)
    if st.2 = [] then .ok st.1
    else .error ("privileges: " ++ name ++ ": " ++ "\n".intercalate st.2)) reg

/-! ## What flattening does -/

/-- The items that are not names of profiles. -/
def isRef (item : Yaml) : Bool := item.asString.isNone

theorem copyItems {key : String} (items : List Yaml) : ∀ (refs : Refs) (k : String),
    Dict.listAt (items.foldl (Refs.copyItem key) refs).heritance k =
        Dict.listAt refs.heritance k ++ (if key = k then items.filterMap Yaml.asString else []) ∧
      Dict.listAt (items.foldl (Refs.copyItem key) refs).refMap k =
        Dict.listAt refs.refMap k ++ (if key = k then items.filter isRef else []) := by
  induction items with
  | nil => intro refs k; simp
  | cons item items ih =>
    intro refs k
    rw [List.foldl_cons, (ih _ k).1, (ih _ k).2]
    by_cases hk : key = k
    · subst hk
      cases item <;>
        simp [Refs.copyItem, Yaml.asString, isRef, List.filterMap_cons, List.filter_cons]
    · cases item <;> simp [Refs.copyItem, hk]

theorem copyRefs_listAt (o : Order) (refs : Refs) (profiles : Dict (List Yaml)) (k : String) :
    Dict.listAt (refs.copyRefs o profiles).heritance k =
        Dict.listAt refs.heritance k ++ (Dict.listAt profiles k).filterMap Yaml.asString ∧
      Dict.listAt (refs.copyRefs o profiles).refMap k =
        Dict.listAt refs.refMap k ++ (Dict.listAt profiles k).filter isRef := by
  have hloop : ∀ (keys : List String), keys.Nodup → ∀ refs : Refs,
      Dict.listAt (keys.foldl (fun refs key =>
          (Dict.listAt profiles key).foldl (Refs.copyItem key) refs) refs).heritance k =
        Dict.listAt refs.heritance k ++
          (if k ∈ keys then (Dict.listAt profiles k).filterMap Yaml.asString else []) ∧
      Dict.listAt (keys.foldl (fun refs key =>
          (Dict.listAt profiles key).foldl (Refs.copyItem key) refs) refs).refMap k =
        Dict.listAt refs.refMap k ++
          (if k ∈ keys then (Dict.listAt profiles k).filter isRef else []) := by
    intro keys
    induction keys with
    | nil => intro _ refs; simp
    | cons key keys ih =>
      intro hn refs
      obtain ⟨hnot, hn⟩ := List.nodup_cons.mp hn
      rw [List.foldl_cons, (ih hn _).1, (ih hn _).2, (copyItems _ refs k).1, (copyItems _ refs k).2]
      by_cases hk : key = k
      · subst hk
        simp [hnot]
      · simp [hk, Ne.symm hk]
  have hrefs := hloop (o.range profiles.keys) (Order.range_nodup Std.ExtTreeMap.nodup_keys) refs
  unfold Refs.copyRefs
  by_cases hk : k ∈ profiles
  · simpa [hk] using hrefs
  · have hnil : Dict.listAt profiles k = [] :=
      List.eq_nil_iff_forall_not_mem.mpr fun _ h => hk (Dict.mem_of_mem_listAt h)
    simpa [hk, hnil] using hrefs

theorem inherit_other (heritance : Dict (List String)) (refMap : Dict (List Yaml))
    {priv k : String} (hk : k ≠ priv) :
    Dict.listAt (inherit heritance refMap priv) k = Dict.listAt refMap k := by
  unfold inherit
  generalize Tree.parents heritance priv = l
  induction l generalizing refMap with
  | nil => rfl
  | cons parent l ih => rw [List.foldl_cons, ih, Dict.listAt_insert, if_neg (Ne.symm hk)]

theorem mem_inherit (heritance : Dict (List String)) (refMap : Dict (List Yaml)) {priv : String}
    (hpriv : priv ∉ Tree.parents heritance priv) (item : Yaml) :
    item ∈ Dict.listAt (inherit heritance refMap priv) priv ↔
      item ∈ Dict.listAt refMap priv ∨
        ∃ parent ∈ Tree.parents heritance priv, item ∈ Dict.listAt refMap parent := by
  unfold inherit
  revert hpriv
  generalize Tree.parents heritance priv = l
  intro hpriv
  induction l generalizing refMap with
  | nil => simp
  | cons parent l ih =>
    obtain ⟨_, hpriv⟩ := not_or.mp (List.mem_cons.not.mp hpriv)
    rw [List.foldl_cons, ih _ hpriv]
    -- the parents that follow are not the profile itself
    have hrest : ∀ p ∈ l, Dict.listAt (refMap.insert priv
        (Dict.listAt refMap priv ++ Dict.listAt refMap parent)) p = Dict.listAt refMap p := by
      intro p hp
      rw [Dict.listAt_insert, if_neg]
      rintro rfl
      exact hpriv hp
    rw [Dict.listAt_insert, if_pos rfl, List.mem_append, or_assoc]
    refine or_congr_right ⟨?_, ?_⟩
    · rintro (h | ⟨p, hp, h⟩)
      · exact ⟨parent, List.mem_cons_self, h⟩
      · exact ⟨p, List.mem_cons_of_mem parent hp, hrest p hp ▸ h⟩
    · rintro ⟨p, hp, h⟩
      rcases List.mem_cons.mp hp with rfl | hp
      · exact .inl h
      · exact .inr ⟨p, hp, (hrest p hp).symm ▸ h⟩

theorem mem_listAt_filter {m : Dict (List Yaml)} {keep : String → Bool} {name : String} {item : Yaml} :
    item ∈ Dict.listAt (m.filter fun key _ => keep key) name ↔
      keep name = true ∧ item ∈ Dict.listAt m name := by
  unfold Dict.listAt
  rw [Std.ExtTreeMap.getElem?_filter']
  cases m[name]? with
  | none => simp
  | some l => by_cases hk : keep name = true <;> simp [hk, Option.filter_some]

section Flatten
variable {o : Order} {value out : Dict (List Yaml)}

/-- The items of a profile, built-in ones first. -/
def itemsOf (value : Dict (List Yaml)) (name : String) : List Yaml :=
  Dict.listAt builtinProfiles name ++ Dict.listAt value name

def inclusionsOf (value : Dict (List Yaml)) (name : String) : List String :=
  (itemsOf value name).filterMap Yaml.asString

theorem heritance_listAt : Dict.listAt
    ((Refs.copyRefs (o.sub 0) {} builtinProfiles).copyRefs (o.sub 1) value).heritance =
      inclusionsOf value := by
  funext k
  rw [(copyRefs_listAt _ _ _ k).1, (copyRefs_listAt _ _ _ k).1]
  simp [inclusionsOf, itemsOf]

/-- Flattening ends unless profiles include each other in a circle. -/
theorem flattenProfiles_error_iff {fault : Fault} : flattenProfiles o value = .error fault ↔
    fault = .stackOverflow ∧ ¬ Digraph.Acyclic (inclusionsOf value) := by
  rw [flattenProfiles, ← heritance_listAt (o := o), ← Tree.walk_eq_none_iff]
  cases hwalk : Tree.walk
      ((Refs.copyRefs (o.sub 0) {} builtinProfiles).copyRefs (o.sub 1) value).heritance with
  | none => simp [eq_comm]
  | some order => simp

theorem kept_of_mem (h : flattenProfiles o value = .ok out) {name : String} (hname : name ∈ out) :
    hasPrefix name "__" = false := by
  simp only [flattenProfiles] at h
  split at h
  · cases h
  · cases h
    obtain ⟨items, hitems⟩ := Dict.mem_iff.mp hname
    rw [Std.ExtTreeMap.getElem?_filter'] at hitems
    obtain ⟨_, hkept⟩ := Option.filter_eq_some_iff.mp hitems
    simpa using hkept

/-- **Flattening resolves inclusions.** A profile that is kept has what is listed by
the profiles it leads to. -/
theorem mem_flattenProfiles (hacyclic : Digraph.Acyclic (inclusionsOf value))
    (h : flattenProfiles o value = .ok out) {name : String} {item : Yaml} :
    item ∈ Dict.listAt out name ↔ hasPrefix name "__" = false ∧
      ∃ c, Relation.ReflTransGen (Digraph.Edge (inclusionsOf value)) name c ∧
        item ∈ (itemsOf value c).filter isRef := by
  unfold flattenProfiles at h
  generalize hrefs : (Refs.copyRefs (o.sub 0) {} builtinProfiles).copyRefs (o.sub 1) value = refs at h
  have hheritance : Dict.listAt refs.heritance = inclusionsOf value := hrefs ▸ heritance_listAt
  have hrefMap : ∀ k, Dict.listAt refs.refMap k = (itemsOf value k).filter isRef := by
    intro k
    rw [← hrefs, (copyRefs_listAt _ _ _ k).2, (copyRefs_listAt _ _ _ k).2]
    simp [itemsOf]
  obtain ⟨order, hwalk, htop, hcovers⟩ := Tree.walk_spec
    (hheritance ▸ hacyclic : Digraph.Acyclic (Dict.listAt refs.heritance))
  simp only [hwalk] at h
  cases h
  obtain ⟨hout, hin⟩ := Digraph.mem_gather Dict.listAt (inherit refs.heritance)
    (fun refMap priv k hk => inherit_other refs.heritance refMap hk)
    (fun refMap priv hpriv item => mem_inherit refs.heritance refMap hpriv item) refs.refMap htop
  rw [mem_listAt_filter, Bool.not_eq_true', ← hheritance, ← Tree.edge_parents]
  refine and_congr_right fun _ => ?_
  simp only [← hrefMap]
  by_cases hname : name ∈ order
  · exact hin name hname item
  · -- the walk goes through every profile with an inclusion
    rw [hout name hname]
    refine ⟨fun h => ⟨name, .refl, h⟩, fun ⟨c, hc, h⟩ => ?_⟩
    rcases hc.cases_head with rfl | ⟨d, hd, _⟩
    · exact h
    · exact absurd (hcovers name (Dict.mem_of_mem_listAt (Tree.mem_parents.mp hd))) hname

end Flatten

end Ldap2pg.Privileges
