import Ldap2pg.Privileges.Acl
import Ldap2pg.Privileges.Inclusion

/-! # The managed ACLs and what active profiles include

What `managedACLs` lists is inspected, and revoked unless it is wanted. It is
filled from the profiles that are left after flattening. -/
namespace Ldap2pg.Privileges.Managed
open Lib Pyfmt Normalize Inclusion

variable {priv : Privilege} {profiles : Dict (List Privilege)} {flat : Dict (List Yaml)}

/-! ## Decoding -/

/-- The text of a key, empty if there is none. -/
def textAt (scalars : Decode.Scalars) (m : Dict Yaml) (key : String) : String :=
  scalars.textOf (m[key]?.getD .null)

/-- The privilege that a map is decoded to. -/
def privilegeOf (scalars : Decode.Scalars) (m : Dict Yaml) : Privilege :=
  ⟨textAt scalars m "type", textAt scalars m "on", textAt scalars m "object"⟩

theorem decodePrivilege_value {scalars : Decode.Scalars} {y : Yaml} {m : Dict Yaml}
    (h : Regular y m) (o : Order) (path : String) : (decodePrivilege scalars o path y).value = privilegeOf scalars m := by
  have hstep : ∀ (tag key : String) (put : String → Privilege → Privilege) (i : Nat)
      (st : Decoded Privilege), Decode.equalFold key tag = true →
      (∀ k ∈ ["type", "on", "object"], Decode.equalFold k tag = true → k = key) →
      put "" st.value = st.value →
        (Decode.storeField o path m st (Decode.field tag (Decode.string scalars) put, i)).value =
          put (textAt scalars m key) st.value := fun tag key put i st hfold htag hput =>
    Decode.storeField_string hfold (fun k hk => htag k (h.keys k hk)) hput
  rw [decodePrivilege, Decode.record_of_map h.asMap]
  simp only [List.zipIdx_cons, List.zipIdx_nil, List.foldl_cons, List.foldl_nil]
  rw [hstep "Object" "object" _ _ _ (by decide +kernel) (by decide +kernel) ?_,
    hstep "On" "on" _ _ _ (by decide +kernel) (by decide +kernel) ?_,
    hstep "Type" "type" _ _ _ (by decide +kernel) (by decide +kernel) rfl]
  · rfl
  · rw [hstep "Type" "type" _ _ _ (by decide +kernel) (by decide +kernel) rfl]
  · rw [hstep "On" "on" _ _ _ (by decide +kernel) (by decide +kernel) ?_,
      hstep "Type" "type" _ _ _ (by decide +kernel) (by decide +kernel) rfl]
    rw [hstep "Type" "type" _ _ _ (by decide +kernel) (by decide +kernel) rfl]

/-- A profile lists the privileges of its maps. -/
theorem mem_decodeProfiles {scalars : Decode.Scalars} {o : Order} {name : String}
    (h : ∀ (k : String), ∀ item ∈ Dict.listAt flat k, ∃ m, Regular item m) :
    priv ∈ Dict.listAt (decodeProfiles scalars o flat).value name ↔
      ∃ m, (∃ item ∈ Dict.listAt flat name, item.asMap = some m) ∧ privilegeOf scalars m = priv := by
  have hitem : ∀ (k : String), ∀ y ∈ Dict.listAt flat k, ∀ (o : Order) (path : String),
      (decodePrivilege scalars o path y).value = privilegeOf scalars (y.asMap.getD ∅) := by
    intro k y hy o path
    obtain ⟨m, hm⟩ := h k y hy
    rw [decodePrivilege_value hm, hm.asMap]
    rfl
  have hprofile : (decodeProfiles scalars o flat).value[name]? =
      (flat[name]?.map Yaml.list).map fun v =>
        (v.asList.getD []).map fun y => privilegeOf scalars (y.asMap.getD ∅) := by
    rw [← Std.ExtTreeMap.getElem?_map (f := fun _ items => Yaml.list items)]
    refine Decode.dict_get (Yaml.asMap_ofMap _) (fun k v hv o path => ?_) name
    rw [Std.ExtTreeMap.getElem?_map] at hv
    obtain ⟨items, hk, rfl⟩ := Option.map_eq_some_iff.mp hv
    refine Decode.list_value fun y hy o path => hitem k y ?_ o path
    rw [Dict.listAt, hk]
    exact hy
  have hlist : Dict.listAt (decodeProfiles scalars o flat).value name =
      (Dict.listAt flat name).map fun y => privilegeOf scalars (y.asMap.getD ∅) := by
    rw [Dict.listAt, hprofile, Dict.listAt]
    cases flat[name]? <;> rfl
  rw [hlist, List.mem_map]
  constructor
  · rintro ⟨y, hy, hpriv⟩
    obtain ⟨m, hm⟩ := h name y hy
    rw [hm.asMap] at hpriv
    exact ⟨m, ⟨y, hy, hm.asMap⟩, hpriv⟩
  · rintro ⟨m, ⟨y, hy, hm⟩, hpriv⟩
    exact ⟨y, hy, by rw [hm]; exact hpriv⟩

/-! ## Registration -/

section Register

/-- `reg'` is `reg` with the entries of the privileges, which are all on known ACLs. -/
structure Registers (privs : List Privilege) (reg reg' : Registry) : Prop where
  acls : reg'.acls = reg.acls
  known : ∀ priv ∈ privs, priv.on ∈ reg.acls
  managed : ∀ a e, e ∈ Dict.listAt reg'.managedACLs a ↔ e ∈ Dict.listAt reg.managedACLs a ∨
    ∃ priv ∈ privs, priv.on = a ∧ (reg.acl a).entry priv.type priv.object = e

variable {reg reg₁ reg' : Registry}

theorem Registers.nil (hacls : reg'.acls = reg.acls)
    (hmanaged : reg'.managedACLs = reg.managedACLs) : Registers [] reg reg' :=
  ⟨hacls, nofun, fun a e => by simp [hmanaged]⟩

theorem Registers.append {l l' : List Privilege} (h : Registers l reg reg₁)
    (h' : Registers l' reg₁ reg') : Registers (l ++ l') reg reg' := by
  refine ⟨h'.acls.trans h.acls, fun priv hpriv => ?_, fun a e => ?_⟩
  · rcases List.mem_append.mp hpriv with hpriv | hpriv
    · exact h.known priv hpriv
    · exact h.acls ▸ h'.known priv hpriv
  · have hacl : reg₁.acl a = reg.acl a := by rw [Registry.acl, h.acls, Registry.acl]
    simp only [h'.managed, h.managed, hacl, List.mem_append, or_and_right, exists_or, or_assoc]

theorem registerPrivilege_ok {st : Registry × List String}
    (h : (Registry.registerPrivilege st priv).2 = []) :
    st.2 = [] ∧ Registers [priv] st.1 (Registry.registerPrivilege st priv).1 := by
  unfold Registry.registerPrivilege at h ⊢
  cases ha : st.1.acls[priv.on]? with
  | none => simp [ha] at h
  | some acl =>
    simp only [ha] at h ⊢
    refine ⟨h, rfl, fun p hp => ?_, fun a e => ?_⟩
    · cases List.mem_singleton.mp hp
      exact Dict.mem_iff.mpr ⟨acl, ha⟩
    · rw [Dict.listAt_insert]
      by_cases hon : priv.on = a
      · subst hon
        simp [Registry.acl, ha, eq_comm]
      · simp [hon]

theorem registerPrivileges_ok {privs : List Privilege} : ∀ {st : Registry × List String},
    (privs.foldl Registry.registerPrivilege st).2 = [] →
      st.2 = [] ∧ Registers privs st.1 (privs.foldl Registry.registerPrivilege st).1 := by
  induction privs with
  | nil => exact fun h => ⟨h, .nil rfl rfl⟩
  | cons priv privs ih =>
    intro st h
    obtain ⟨hone, hrest⟩ := ih h
    obtain ⟨hst, hfirst⟩ := registerPrivilege_ok hone
    exact ⟨hst, hfirst.append hrest⟩

/-- **Registration adds what all profiles list.** -/
theorem registerProfiles_ok {o : Order} (h : reg.registerProfiles o profiles = .ok reg') :
    ∃ privs, Registers privs reg reg' ∧
      ∀ priv, priv ∈ privs ↔ ∃ name, priv ∈ Dict.listAt profiles name := by
  have hloop : ∀ (names : List String) (reg : Registry),
      names.foldlM (m := Except String) (fun reg name =>
        let st := Registry.registerProfile reg name (Dict.listAt profiles name)
        if st.2 = [] then .ok st.1
        else .error ("privileges: " ++ name ++ ": " ++ "\n".intercalate st.2)) reg = .ok reg' →
      Registers (names.flatMap (Dict.listAt profiles)) reg reg' := by
    intro names
    induction names with
    | nil =>
      intro reg h
      cases h
      exact .nil rfl rfl
    | cons name names ih =>
      intro reg h
      rw [List.foldlM_cons] at h
      obtain ⟨reg₁, hone, hrest⟩ := bind_eq_ok.mp h
      simp only at hone
      split at hone
      · next hnone =>
        cases hone
        obtain ⟨_, hfirst⟩ := registerPrivileges_ok hnone
        have hprofile : Registers (Dict.listAt profiles name) reg
            (reg.registerProfile name (Dict.listAt profiles name)).1 :=
          ⟨hfirst.acls, hfirst.known, hfirst.managed⟩
        exact hprofile.append (ih _ hrest)
      · cases hone
  refine ⟨_, hloop _ _ h, fun priv => ?_⟩
  simp only [List.mem_flatMap, Order.mem_range, Std.ExtTreeMap.mem_keys]
  constructor
  · rintro ⟨name, _, hin⟩
    exact ⟨name, hin⟩
  · rintro ⟨name, hin⟩
    exact ⟨name, Dict.mem_of_mem_listAt hin, hin⟩

theorem registerPrivileges_known {privs : List Privilege} : ∀ (st : Registry × List String),
    (∀ priv ∈ privs, priv.on ∈ st.1.acls) →
      (privs.foldl Registry.registerPrivilege st).2 = st.2 ∧
        (privs.foldl Registry.registerPrivilege st).1.acls = st.1.acls := by
  induction privs with
  | nil => exact fun _ _ => ⟨rfl, rfl⟩
  | cons priv privs ih =>
    intro st h
    obtain ⟨acl, hacl⟩ := Dict.mem_iff.mp (h priv List.mem_cons_self)
    have hone : (Registry.registerPrivilege st priv).2 = st.2 ∧
        (Registry.registerPrivilege st priv).1.acls = st.1.acls := by
      rw [Registry.registerPrivilege, hacl]
      exact ⟨rfl, rfl⟩
    obtain ⟨herrs, hacls⟩ := ih (Registry.registerPrivilege st priv) fun p hp =>
      hone.2 ▸ h p (List.mem_cons_of_mem priv hp)
    exact ⟨herrs.trans hone.1, hacls.trans hone.2⟩

/-- Registration passes when all ACLs are known. -/
theorem exists_registerProfiles {o : Order}
    (h : ∀ (name : String), ∀ priv ∈ Dict.listAt profiles name, priv.on ∈ reg.acls) :
    ∃ reg', reg.registerProfiles o profiles = .ok reg' := by
  unfold Registry.registerProfiles
  generalize o.range profiles.keys = names
  induction names generalizing reg with
  | nil => exact ⟨reg, rfl⟩
  | cons name names ih =>
    obtain ⟨herrs, hacls⟩ := registerPrivileges_known (reg, []) (h name)
    have hstep : ∀ (other : String), ∀ priv ∈ Dict.listAt profiles other,
        priv.on ∈ (reg.registerProfile name (Dict.listAt profiles name)).1.acls :=
      fun other priv hpriv => hacls.symm ▸ h other priv hpriv
    obtain ⟨reg', hreg'⟩ := ih hstep
    refine ⟨reg', ?_⟩
    rw [List.foldlM_cons]
    exact bind_eq_ok.mpr ⟨_, if_pos herrs, hreg'⟩

/-- Registering the ACLs changes nothing else. -/
theorem registerPrivileges_split {o : Order} {acls : Dict ACL}
    (h : reg.registerPrivileges o acls profiles = .ok reg') :
    ∃ reg₁ : Registry, reg₁.managedACLs = reg.managedACLs ∧
      reg₁.registerProfiles (o.sub 1) profiles = .ok reg' := by
  obtain ⟨reg₁, hacls, hprofiles⟩ := bind_eq_ok.mp h
  refine ⟨reg₁, ?_, hprofiles⟩
  generalize (o.sub 0).range acls.keys = names at hacls
  clear h hprofiles
  induction names generalizing reg with
  | nil => cases hacls; rfl
  | cons name names ih =>
    rw [List.foldlM_cons] at hacls
    obtain ⟨reg₂, hone, hrest⟩ := bind_eq_ok.mp hacls
    rw [ih hrest, (ACL.register_frame (mapError_eq_ok.mp hone)).1]

end Register

/-! ## The scope of revocation -/

section Scope
variable {scalars : Decode.Scalars} {u : Strings} {o o₁ o₂ : Order} {value : Yaml} {m : Dict Yaml}

/-- A profile includes a privilege, through any chain of inclusions. -/
def Included (scalars : Decode.Scalars) (u : Strings) (m : Dict Yaml) (p : String) (priv : Privilege) : Prop :=
  ∃ q, Includes m p q ∧ ∃ item ∈ listed m q, ∃ single ∈ singles u item, privilegeOf scalars single = priv

/-- A profile that a rule can name: the documentation has those whose name starts with an
underscore inactive. -/
def Active (p : String) : Prop := hasPrefix p "_" = false

instance (p : String) : Decidable (Active p) := inferInstanceAs (Decidable (_ = _))

/-- A privilege of this type on the ACL, with this object if the ACL has default
privileges. -/
structure Matches (acl : ACL) (a type object : String) (priv : Privilege) : Prop where
  on : priv.on = a
  type : priv.type = type
  object : acl.uses "owner" = true → priv.object = object

theorem Matches.entry {acl : ACL} {a type object : String} (h : Matches acl a type object priv) :
    acl.entry priv.type priv.object = acl.entry type object := by
  unfold ACL.entry
  by_cases howner : acl.uses "owner" = true
  · rw [h.type, h.object howner]
  · simp [howner, h.type]

theorem Active.kept {p : String} (h : Active p) : hasPrefix p "__" = false := by
  rw [Active, ← Bool.not_eq_true] at h
  rw [← Bool.not_eq_true]
  intro hunder
  have htwo : "__".toList <+: p.toList := List.isPrefixOf_iff_prefix.mp hunder
  exact h (List.isPrefixOf_iff_prefix.mpr (List.IsPrefix.trans ⟨['_'], rfl⟩ htwo))

/-- **What is managed**: the entries of the privileges that profiles include, but those
whose name starts with two underscores. -/
theorem mem_managed {acls : Dict ACL} {reg reg' : Registry} (hempty : reg.managedACLs = ∅)
    (hm : value.asMap = some m) (hflat : normalizeProfiles u o value = .ok flat)
    (hreg : reg.registerPrivileges o₂ acls (decodeProfiles scalars o₁ flat).value = .ok reg')
    (a e : String) : e ∈ Dict.listAt reg'.managedACLs a ↔
      ∃ p, hasPrefix p "__" = false ∧ ∃ priv, Included scalars u m p priv ∧ priv.on = a ∧
        (reg'.acl a).entry priv.type priv.object = e := by
  obtain ⟨reg₁, hmanaged, hprofiles⟩ := registerPrivileges_split hreg
  obtain ⟨privs, hregisters, hprivs⟩ := registerProfiles_ok hprofiles
  have hregular : ∀ (k : String), ∀ item ∈ Dict.listAt flat k, ∃ m, Regular item m :=
    fun k item hitem => ((mem_flat hm hflat k).1 item hitem).2
  have hmem : ∀ priv, priv ∈ privs ↔ ∃ p, hasPrefix p "__" = false ∧ Included scalars u m p priv := by
    intro priv
    rw [hprivs]
    refine exists_congr fun p => ?_
    rw [mem_decodeProfiles hregular]
    simp only [(mem_flat hm hflat p).2]
    constructor
    · rintro ⟨single, ⟨hkept, q, hq, item, hitem, hin⟩, hpriv⟩
      exact ⟨hkept, q, hq, item, hitem, single, hin, hpriv⟩
    · rintro ⟨hkept, q, hq, item, hitem, single, hin, hpriv⟩
      exact ⟨single, ⟨hkept, q, hq, item, hitem, hin⟩, hpriv⟩
  have hacl : reg'.acl a = reg₁.acl a := by rw [Registry.acl, hregisters.acls, Registry.acl]
  rw [hregisters.managed, hmanaged, hempty, hacl]
  simp only [Dict.listAt_empty, List.not_mem_nil, false_or, hmem]
  constructor
  · rintro ⟨priv, ⟨p, hkept, hin⟩, hentry⟩
    exact ⟨p, hkept, priv, hin, hentry⟩
  · rintro ⟨p, hkept, priv, hin, hentry⟩
    exact ⟨priv, ⟨p, hkept, hin⟩, hentry⟩

/-- A profile that is kept and includes a privilege is one of the section. -/
theorem Included.mem {p : String} (h : Included scalars u m p priv)
    (hkept : hasPrefix p "__" = false) : p ∈ m := by
  -- what the profile lists itself is enough: an included profile is listed too
  have hlisted : ∀ item ∈ listed m p, p ∈ m := by
    intro item hitem
    rcases List.mem_append.mp hitem with hitem | hitem
    · obtain ⟨b, hb, rfl, _⟩ := mem_builtin hitem
      rw [builtin_underscores b.1 (List.mem_map_of_mem hb)] at hkept
      cases hkept
    · obtain ⟨items, hitems, _⟩ := mem_rawItems hitem
      exact Dict.mem_iff.mpr ⟨_, hitems⟩
  obtain ⟨q, hq, item, hitem, _⟩ := h
  rcases hq.cases_head with rfl | ⟨c, hc, _⟩
  · exact hlisted item hitem
  · obtain ⟨item', hitem', _⟩ := List.mem_filterMap.mp hc
    exact hlisted item' hitem'

theorem eq_of_joined_append {t w o o' : List Char} (hw : ¬ " ON".toList <:+: t ++ w)
    (h : " ON ".toList ++ o = w ++ (" ON ".toList ++ o')) : w = [] := by
  match w with
  | [] => rfl
  | [a] => simp at h
  | [a, b] => simp at h
  | a :: b :: c :: w =>
    obtain ⟨rfl, rfl, rfl, _⟩ : ' ' = a ∧ 'O' = b ∧ 'N' = c ∧ _ = _ := by simpa using h
    exact absurd ⟨t, w, by simp⟩ hw

/-- The text that joins a type and an object ends the type. -/
theorem type_of_joined {t t' o o' : String} (ht : ¬ " ON".toList <:+: t.toList)
    (ht' : ¬ " ON".toList <:+: t'.toList) (h : t ++ " ON " ++ o = t' ++ " ON " ++ o') :
    t = t' ∧ o = o' := by
  have hlist := congrArg String.toList h
  simp only [String.toList_append, List.append_assoc] at hlist
  rcases List.append_eq_append_iff.mp hlist with ⟨w, hw, hrest⟩ | ⟨w, hw, hrest⟩
  · cases eq_of_joined_append (hw ▸ ht') hrest
    rw [List.append_nil] at hw
    exact ⟨String.toList_inj.mp hw.symm, String.toList_inj.mp (by simpa using hrest)⟩
  · cases eq_of_joined_append (hw ▸ ht) hrest
    rw [List.append_nil] at hw
    exact ⟨String.toList_inj.mp hw, String.toList_inj.mp (by simpa using hrest.symm)⟩

theorem matches_of_entry {acl : ACL} {a type object : String} (hon : priv.on = a)
    (hpriv : ¬ " ON".toList <:+: priv.type.toList) (htype : ¬ " ON".toList <:+: type.toList)
    (h : acl.entry priv.type priv.object = acl.entry type object) :
    Matches acl a type object priv := by
  unfold ACL.entry at h
  by_cases howner : acl.uses "owner" = true
  · rw [if_pos howner, if_pos howner] at h
    obtain ⟨h, h'⟩ := type_of_joined hpriv htype h
    exact ⟨hon, h, fun _ => h'⟩
  · rw [if_neg howner, if_neg howner] at h
    exact ⟨hon, h, fun h' => absurd h' howner⟩

/-- **Without a profile under one underscore, exactly what active profiles include is managed**,
for types that do not hold the word that joins them to an object. -/
theorem managed_active {acls : Dict ACL} {reg reg' : Registry} (hempty : reg.managedACLs = ∅)
    (hm : value.asMap = some m) (hflat : normalizeProfiles u o value = .ok flat)
    (hreg : reg.registerPrivileges o₂ acls (decodeProfiles scalars o₁ flat).value = .ok reg')
    (hactive : ∀ p ∈ m, hasPrefix p "__" = false → Active p)
    (htypes : ∀ p priv, Included scalars u m p priv → ¬ " ON".toList <:+: priv.type.toList)
    {type : String} (htype : ¬ " ON".toList <:+: type.toList) (a object : String) :
    (reg'.acl a).entry type object ∈ Dict.listAt reg'.managedACLs a ↔
      ∃ p, Active p ∧ ∃ priv, Included scalars u m p priv ∧ Matches (reg'.acl a) a type object priv := by
  rw [mem_managed hempty hm hflat hreg]
  constructor
  · rintro ⟨p, hkept, priv, hin, hon, hentry⟩
    exact ⟨p, hactive p (hin.mem hkept) hkept, priv, hin,
      matches_of_entry hon (htypes p priv hin) htype hentry⟩
  · rintro ⟨p, hactive, priv, hin, hmatch⟩
    exact ⟨p, hactive.kept, priv, hin, hmatch.on, hmatch.entry⟩

/-- **Exactly what active profiles include is managed**, for a type and an object on an
ACL, if and only if what gets there otherwise is included by an active profile too:
the code drops the profiles whose name starts with two underscores, and joins type
and object in a text. -/
theorem managed_active_iff {flat : Dict (List Yaml)} {acls : Dict ACL} {reg reg' : Registry}
    (hempty : reg.managedACLs = ∅) (hm : value.asMap = some m)
    (hflat : normalizeProfiles u o value = .ok flat)
    (hreg : reg.registerPrivileges o₂ acls (decodeProfiles scalars o₁ flat).value = .ok reg')
    (a type object : String) :
    ((reg'.acl a).entry type object ∈ Dict.listAt reg'.managedACLs a ↔
      ∃ p, Active p ∧ ∃ priv, Included scalars u m p priv ∧ Matches (reg'.acl a) a type object priv) ↔
    ∀ p priv, hasPrefix p "__" = false → Included scalars u m p priv → priv.on = a →
      (reg'.acl a).entry priv.type priv.object = (reg'.acl a).entry type object →
        ∃ p', Active p' ∧ ∃ priv', Included scalars u m p' priv' ∧
          Matches (reg'.acl a) a type object priv' := by
  rw [mem_managed hempty hm hflat hreg]
  refine ⟨fun h p priv hkept hin hon hentry => h.mp ⟨p, hkept, priv, hin, hon, hentry⟩, fun h => ?_⟩
  refine ⟨fun ⟨p, hkept, priv, hin, hon, hentry⟩ => h p priv hkept hin hon hentry, ?_⟩
  rintro ⟨p, hactive, priv, hin, hmatch⟩
  exact ⟨p, hactive.kept, priv, hin, hmatch.on, hmatch.entry⟩

/-! ## A profile with one privilege -/

/-- `type: CREATE` on schemas. -/
def create : Yaml := privilegeYaml "CREATE" "SCHEMA"

def sectionOf (name : String) : Yaml := .map [(name, .list [create])]

/-- The registries once `init` has run. -/
def initial : Registry := ⟨builtinRegistry, ∅, ∅⟩

theorem mem_rawItems_sectionOf {name p : String} {item : Yaml}
    (hm : (sectionOf name).asMap = some m) : item ∈ rawItems m p ↔ p = name ∧ item = create := by
  refine ⟨fun h => ?_, ?_⟩
  · obtain ⟨items, hget, hin⟩ := mem_rawItems h
    have hentry := Yaml.mem_entries hm hget
    cases List.mem_singleton.mp hentry
    exact ⟨rfl, List.mem_singleton.mp hin⟩
  · rintro ⟨rfl, rfl⟩
    cases hm
    simp [rawItems, Dict.fill, Yaml.asList]

theorem mem_singles_create {single : Dict Yaml} :
    single ∈ singles sampleStrings create ↔ create.asMap = some single := by
  have hkeeps := (BuiltinItem.privilege "CREATE" "SCHEMA").keeps (u := sampleStrings)
  simpa [create, isRef, privilegeYaml, Yaml.asString] using (hkeeps.privileges single).symm

theorem included_sectionOf {name p : String} (hm : (sectionOf name).asMap = some m)
    (hp : hasPrefix p "__" = false) :
    Included scalars sampleStrings m p priv ↔ p = name ∧ priv = ⟨"CREATE", "SCHEMA", ""⟩ := by
  have hlisted : ∀ item, item ∈ listed m p ↔ p = name ∧ item = create := by
    intro item
    rw [listed, List.mem_append, mem_rawItems_sectionOf hm, or_iff_right]
    intro h
    obtain ⟨b, hb, rfl, _⟩ := mem_builtin h
    rw [builtin_underscores b.1 (List.mem_map_of_mem hb)] at hp
    cases hp
  -- the profile names no other
  have hself : ∀ q, Includes m p q → q = p := by
    intro q hq
    rcases hq.cases_head with rfl | ⟨c, hc, _⟩
    · rfl
    · obtain ⟨item, hitem, hname⟩ := List.mem_filterMap.mp hc
      obtain ⟨_, rfl⟩ := (hlisted item).mp hitem
      cases hname
  have hpriv : ∀ single, create.asMap = some single →
      privilegeOf scalars single = ⟨"CREATE", "SCHEMA", ""⟩ := by
    intro single h
    cases h
    simp only [privilegeOf, textAt, Dict.fill, List.foldl_cons, List.foldl_nil, Dict.get_insert,
      Dict.get_empty, String.reduceEq, if_true, if_false, Option.getD_some, Decode.Scalars.textOf_str]
    rfl
  constructor
  · rintro ⟨q, hq, item, hitem, single, hsingle, rfl⟩
    cases hself q hq
    obtain ⟨hname, rfl⟩ := (hlisted item).mp hitem
    exact ⟨hname, hpriv single (mem_singles_create.mp hsingle)⟩
  · rintro ⟨hname, rfl⟩
    exact ⟨p, .refl, create, (hlisted create).mpr ⟨hname, rfl⟩, _, mem_singles_create.mpr rfl,
      hpriv _ rfl⟩

theorem sectionOf_registered (name : String) (hname : hasPrefix name "__" = false) :
    ∃ m flat, (sectionOf name).asMap = some m ∧
      normalizeProfiles sampleStrings Order.sorted (sectionOf name) = .ok flat ∧
      ∀ scalars, ∃ reg', initial.registerPrivileges Order.sorted ∅
        (decodeProfiles scalars Order.sorted flat).value = .ok reg' ∧
          reg'.acl "SCHEMA" = onSchema "SCHEMA" := by
  obtain ⟨m, hm⟩ : ∃ m, (sectionOf name).asMap = some m := ⟨_, rfl⟩
  have hacyclic : Digraph.Acyclic (includes m) := by
    refine acyclic_of_rank (fun _ => 0) (fun p hp => ?_) fun p other hother => ?_
    · obtain ⟨v, hv⟩ := Dict.mem_iff.mp hp
      cases List.mem_singleton.mp (Yaml.mem_entries hm hv)
      exact hname
    · cases ((mem_rawItems_sectionOf hm).mp hother).2
  have haccepted : ∀ (p : String) (profile : Yaml), m[p]? = some profile →
      ProfileAccepted sampleStrings profile := by
    intro p profile h
    cases List.mem_singleton.mp (Yaml.mem_entries hm h)
    refine ⟨_, rfl, fun item hitem => List.mem_singleton.mp hitem ▸ ?_⟩
    exact (regular_entries (by simp)).accepted
  obtain ⟨flat, hflat⟩ := exists_flat (o := Order.sorted) hm haccepted hacyclic
  refine ⟨m, flat, hm, hflat, fun scalars => ?_⟩
  have hknown : ∀ (p : String), ∀ priv ∈ Dict.listAt (decodeProfiles scalars Order.sorted flat).value p,
      priv.on ∈ initial.acls := by
    intro p priv hpriv
    obtain ⟨single, hsingle, rfl⟩ := (mem_decodeProfiles fun k item hitem =>
      ((mem_flat hm hflat k).1 item hitem).2).mp hpriv
    obtain ⟨hkept, q, hq, item, hitem, hin⟩ := ((mem_flat hm hflat p).2 single).mp hsingle
    have hincluded : Included scalars sampleStrings m p (privilegeOf scalars single) :=
      ⟨q, hq, item, hitem, single, hin, rfl⟩
    rw [((included_sectionOf hm hkept).mp hincluded).2]
    show "SCHEMA" ∈ builtinRegistry
    decide +kernel
  obtain ⟨reg', hreg'⟩ := exists_registerProfiles (o := Order.sorted.sub 1) hknown
  have hnone : (Order.sorted.sub 0).range (∅ : Dict ACL).keys = [] := Order.range_nil _
  refine ⟨reg', bind_eq_ok.mpr ⟨initial, by rw [hnone]; rfl, hreg'⟩, ?_⟩
  obtain ⟨_, hregisters, _⟩ := registerProfiles_ok hreg'
  rw [Registry.acl, hregisters.acls]
  show builtinRegistry["SCHEMA"]?.getD default = onSchema "SCHEMA"
  decide +kernel

theorem create_entry : (onSchema "SCHEMA").entry "CREATE" "" = "CREATE" := by decide +kernel

theorem reader_managed : ∃ flat reg',
    normalizeProfiles sampleStrings Order.sorted (sectionOf "reader") = .ok flat ∧
    initial.registerPrivileges Order.sorted ∅ (decodeProfiles .strict Order.sorted flat).value =
      .ok reg' ∧ "CREATE" ∈ Dict.listAt reg'.managedACLs "SCHEMA" := by
  obtain ⟨m, flat, hm, hflat, hregistered⟩ := sectionOf_registered "reader" (by decide)
  obtain ⟨reg', hreg, hacl⟩ := hregistered .strict
  have hactive : ∃ p, Active p ∧ ∃ priv, Included .strict sampleStrings m p priv ∧
      Matches (reg'.acl "SCHEMA") "SCHEMA" "CREATE" "" priv :=
    ⟨"reader", by decide, _, (included_sectionOf hm (by decide)).mpr ⟨rfl, rfl⟩, rfl, rfl, fun _ => rfl⟩
  have hmanaged := (managed_active_iff rfl hm hflat hreg "SCHEMA" "CREATE" "").mpr
    fun _ _ _ _ _ _ => hactive
  rw [hacl, create_entry] at hmanaged
  exact ⟨flat, reg', hflat, hreg, hmanaged.mpr (hacl ▸ hactive)⟩

/-- A profile that the documentation has inactive, and what it lists is managed. -/
theorem hidden_managed : ∃ m flat, (sectionOf "_reader").asMap = some m ∧
    normalizeProfiles sampleStrings Order.sorted (sectionOf "_reader") = .ok flat ∧
    ∀ scalars, ∃ reg', initial.registerPrivileges Order.sorted ∅
      (decodeProfiles scalars Order.sorted flat).value = .ok reg' ∧
    "CREATE" ∈ Dict.listAt reg'.managedACLs "SCHEMA" ∧
    ¬ ∃ p, Active p ∧ ∃ priv, Included scalars sampleStrings m p priv ∧
      Matches (reg'.acl "SCHEMA") "SCHEMA" "CREATE" "" priv := by
  obtain ⟨m, flat, hm, hflat, hregistered⟩ := sectionOf_registered "_reader" (by decide)
  refine ⟨m, flat, hm, hflat, fun scalars => ?_⟩
  obtain ⟨reg', hreg, hacl⟩ := hregistered scalars
  refine ⟨reg', hreg, ?_, ?_⟩
  · refine (mem_managed rfl hm hflat hreg "SCHEMA" "CREATE").mpr ⟨"_reader", by decide, _,
      (included_sectionOf hm (by decide)).mpr ⟨rfl, rfl⟩, rfl, ?_⟩
    rw [hacl]
    exact create_entry
  · rintro ⟨p, hactive, priv, hincluded, _⟩
    obtain ⟨rfl, _⟩ := (included_sectionOf hm hactive.kept).mp hincluded
    exact absurd hactive (by decide)

end Scope

end Ldap2pg.Privileges.Managed
