import Ldap2pg.Privileges.Defaults
import Ldap2pg.Privileges.Managed

/-! # Granting default privileges

`ALTER DEFAULT PRIVILEGES` on the entries of `pg_default_acl`, for the grants of the
`__default_*__` profiles, and what the inspection queries read afterwards. -/
namespace Ldap2pg.Privileges.Altered
open Lib Lib.Sql Pyfmt Postgres Partial Defaults Managed Converge

variable {version : Nat} {t : ObjType}

/-! ## The statement -/

section Alter
variable {roles : PgRoles}

/-- `aclupdate`: an item that is there already is not added. -/
def aclupdate (acl : List AclItem) (item : AclItem) : List AclItem :=
  if item ∈ acl then acl else acl ++ [item]

def aclequal (acl acl' : List AclItem) : Bool :=
  acl.all (fun item => item ∈ acl') && acl'.all (fun item => item ∈ acl)

/-- What an entry starts from, and what makes it superfluous: the hard-wired defaults for
the whole database, nothing for a schema. -/
def initialAcl (version owner nsp : Nat) (t : ObjType) : List AclItem :=
  if nsp = 0 then hardwiredAcl version owner t else []

/-- The entry of a key with an item more. -/
def altered (acls : DefaultAcls roles) (version nsp : Nat) (t : ObjType) (item : AclItem) :
    List AclItem :=
  aclupdate ((acls.stored item.grantor nsp t).getD (initialAcl version item.grantor nsp t)) item

theorem mem_aclupdate {acl : List AclItem} {item x : AclItem} :
    x ∈ aclupdate acl item ↔ x ∈ acl ∨ x = item := by
  unfold aclupdate
  split
  · exact ⟨.inl, fun h => h.elim id fun h => h ▸ ‹item ∈ acl›⟩
  · simp

theorem known_of_mem_altered {acls : DefaultAcls roles} {nsp : Nat} {item x : AclItem}
    (howner : ∃ role ∈ roles.rows, role.oid = item.grantor) (hitem : roles.Known item.grantee)
    (hx : x ∈ altered acls version nsp t item) : roles.Known x.grantee := by
  rcases mem_aclupdate.mp hx with hx | rfl
  · cases hstored : acls.stored item.grantor nsp t with
    | some acl =>
      rw [hstored] at hx
      exact acls.grantees _ (stored_eq_some.mp hstored) x hx
    | none =>
      rw [hstored, Option.getD_none, initialAcl] at hx
      split at hx
      · rcases List.mem_append.mp hx with hx | hx
        · exact .inl (mem_itemsFor.mp hx).2.1
        · exact .inr ((mem_itemsFor.mp hx).2.1 ▸ howner)
      · cases hx
  · exact hitem

/-- `SetDefaultACL`: the entry is written, or removed if it says nothing more than there
is without it. -/
def alter (acls : DefaultAcls roles) (version nsp : Nat) (t : ObjType) (item : AclItem)
    (howner : ∃ role ∈ roles.rows, role.oid = item.grantor) (hitem : roles.Known item.grantee) :
    DefaultAcls roles where
  rows := acls.rows.filter (fun row => row.key ≠ (item.grantor, nsp, t)) ++
    if aclequal (altered acls version nsp t item) (initialAcl version item.grantor nsp t) then []
    else [⟨item.grantor, nsp, t, altered acls version nsp t item⟩]
  keys := by
    rw [List.map_append]
    refine (acls.keys.sublist (List.filter_sublist.map _)).append (by split <;> simp) ?_
    intro key hkey hkey'
    obtain ⟨row, hrow, rfl⟩ := List.mem_map.mp hkey
    have hne := (List.mem_filter.mp hrow).2
    split at hkey'
    · cases hkey'
    · simp only [List.map_singleton, List.mem_singleton] at hkey'
      exact of_decide_eq_true hne hkey'
  owners := by
    intro row hrow
    rcases List.mem_append.mp hrow with hrow | hrow
    · exact acls.owners row (List.mem_filter.mp hrow).1
    · split at hrow
      · cases hrow
      · cases List.mem_singleton.mp hrow
        exact howner
  grantees := by
    intro row hrow
    rcases List.mem_append.mp hrow with hrow | hrow
    · exact acls.grantees row (List.mem_filter.mp hrow).1
    · split at hrow
      · cases hrow
      · cases List.mem_singleton.mp hrow
        exact fun x hx => known_of_mem_altered howner hitem hx

/-- An item that is not there by default makes an entry. -/
theorem mem_alter {acls : DefaultAcls roles} {nsp : Nat} {item : AclItem}
    (howner : ∃ role ∈ roles.rows, role.oid = item.grantor) (hitem : roles.Known item.grantee)
    (h : item ∉ initialAcl version item.grantor nsp t) :
    ⟨item.grantor, nsp, t, altered acls version nsp t item⟩ ∈
      (alter acls version nsp t item howner hitem).rows := by
  refine List.mem_append_right _ ?_
  rw [if_neg]
  · exact List.mem_singleton_self _
  · intro hequal
    have hall := List.all_eq_true.mp (Bool.and_eq_true_iff.mp hequal).1 item
      (mem_aclupdate.mpr (.inr rfl))
    exact h (of_decide_eq_true hall)

/-- `TABLES`, `SEQUENCES`, `FUNCTIONS` and `ROUTINES`. -/
def keyword (object : String) : Option ObjType :=
  if object = "TABLES" then some .r
  else if object = "SEQUENCES" then some .S
  else if object = "FUNCTIONS" ∨ object = "ROUTINES" then some .f
  else none

def granteeOf (roles : PgRoles) (name : String) : Option roles.Grantee :=
  if name = "public" then some ⟨0, .inl rfl⟩
  else (roles.rows.attach.find? fun role => role.1.rolname == name).map fun role =>
    ⟨role.1.oid, .inr ⟨role.1, role.2, rfl⟩⟩

/-- The schema of `IN SCHEMA`, which the template for the whole database does not have. -/
def namespaceOf (nsps : Namespaces) (g : Grant) : Option Nat :=
  if g.acl = "GLOBAL DEFAULT" then some 0
  else (nsps.rows.find? fun nsp => nsp.nspname == g.schema).map Namespace.oid

/-- `ALTER DEFAULT PRIVILEGES ... GRANT`, with the values of a grant. An unknown name or a
privilege that the class does not have is an error. -/
def alterDefault (nsps : Namespaces) (version : Nat) (acls : DefaultAcls roles) (g : Grant) :
    Option (DefaultAcls roles) := do
  let owner ← roles.rows.attach.find? fun role => role.1.rolname == g.owner
  let nsp ← namespaceOf nsps g
  let t ← keyword g.object
  let grantee ← granteeOf roles g.grantee
  if h : g.type ∈ classPrivileges version t then
    return alter acls version nsp t ⟨owner.1.oid, grantee.1, g.type, classPrivileges_named h⟩
      ⟨owner.1, owner.2, rfl⟩ grantee.2
  else none

theorem find_role {role : PgRole} (hrole : role ∈ roles.rows) :
    (roles.rows.attach.find? fun r => r.1.rolname == role.rolname) = some ⟨role, hrole⟩ := by
  have hnames : roles.rows.attach.map (fun r => r.1.rolname) = roles.rows.map PgRole.rolname :=
    List.attach_map_val
  exact (find_key_eq_some (hnames ▸ roles.names)).mpr ⟨List.mem_attach _ _, rfl⟩

theorem granteeOf_eq {name : String}
    (h : name = "public" ∨ ∃ role ∈ roles.rows, role.rolname = name) :
    ∃ grantee, granteeOf roles name = some grantee ∧ roles.nameOf grantee.1 = name := by
  rcases h with rfl | ⟨role, hrole, rfl⟩
  · exact ⟨⟨0, .inl rfl⟩, rfl, PgRoles.nameOf_zero⟩
  · refine ⟨⟨role.oid, .inr ⟨role, hrole, rfl⟩⟩, ?_, PgRoles.nameOf_role hrole⟩
    rw [granteeOf, if_neg (roles.reserved role hrole).2, find_role hrole]
    rfl

/-- The statement runs once every name is known. -/
theorem alterDefault_eq {nsps : Namespaces} {acls : DefaultAcls roles} {g : Grant} {owner : PgRole}
    {nsp : Nat} {grantee : roles.Grantee} (howner : owner ∈ roles.rows)
    (hname : owner.rolname = g.owner) (hnsp : namespaceOf nsps g = some nsp)
    (ht : keyword g.object = some t) (hgrantee : granteeOf roles g.grantee = some grantee)
    (htype : g.type ∈ classPrivileges version t) :
    alterDefault nsps version acls g =
      some (alter acls version nsp t ⟨owner.oid, grantee.1, g.type, classPrivileges_named htype⟩
        ⟨owner, howner, rfl⟩ grantee.2) := by
  simp [alterDefault, ← hname, find_role howner, hnsp, ht, hgrantee, htype]

end Alter

/-! ## The privileges of the profiles -/

/-- The privileges that the `__default_*__` profiles list. Their values are texts, which no decoder
converts. -/
def defaultPrivileges : List Privilege :=
  (builtinProfileList.filter fun p => hasPrefix p.1 "__default_").flatMap fun p =>
    p.2.filterMap fun item => item.asMap.map (privilegeOf .strict)

/-- They are on a class that both `ALTER DEFAULT PRIVILEGES` and the query for schemas name
the same way. -/
theorem default_class : ∀ priv ∈ defaultPrivileges,
    (priv.on = "GLOBAL DEFAULT" ∨ priv.on = "SCHEMA DEFAULT") ∧
      ∃ t ∈ [ObjType.r, .S, .f], keyword priv.object = some t ∧ schemaObject t = some priv.object ∧
        priv.type ∈ classPrivileges 0 t := by
  decide +kernel

theorem classPrivileges_mono {p : String} (h : p ∈ classPrivileges 0 t) :
    p ∈ classPrivileges version t := by
  cases t with
  | r => exact List.mem_append_left _ (by simpa [classPrivileges] using h)
  | S | f | T | n => exact h

/-! ## What the queries read -/

section Read
variable {roles : PgRoles} {acls : DefaultAcls roles} {types : List String} {version : Nat}
  {t : ObjType} {item : AclItem} {object : String}

theorem global_mem_alter (howner : ∃ role ∈ roles.rows, role.oid = item.grantor)
    (hitem : roles.Known item.grantee) (hother : item.grantee ≠ item.grantor)
    (hworld : worldPrivileges t = []) (hobject : globalObject t = some object)
    (htypes : item.privilege ++ " ON " ++ object ∈ types) :
    .globalDefault (roles.nameOf item.grantor) item.privilege object (roles.nameOf item.grantee) ∈
      inspectGlobalDefault (alter acls version 0 t item howner hitem) types := by
  have hnew : item ∉ initialAcl version item.grantor 0 t := by
    rw [initialAcl, if_pos rfl, hardwiredAcl, hworld]
    exact fun h => hother (mem_itemsFor.mp h).2.1
  refine mem_inspectGlobalDefault.mpr ⟨_, List.mem_append_right _ (mem_exploded.mpr
    ⟨_, List.mem_filter.mpr ⟨mem_alter howner hitem hnew, rfl⟩, item,
      mem_aclupdate.mpr (.inr rfl), rfl⟩), rfl, object, ⟨hobject, htypes⟩, rfl⟩

theorem schema_mem_alter {nsps : Namespaces} {nsp : Namespace} (hnsp : nsp ∈ nsps.rows)
    (howner : ∃ role ∈ roles.rows, role.oid = item.grantor) (hitem : roles.Known item.grantee)
    (hobject : schemaObject t = some object) (htypes : item.privilege ++ " ON " ++ object ∈ types) :
    .schemaDefault (roles.nameOf item.grantor) nsp.nspname item.privilege object
        (roles.nameOf item.grantee) ∈
      inspectSchemaDefault nsps (alter acls version nsp.oid t item howner hitem) types := by
  have hnew : item ∉ initialAcl version item.grantor nsp.oid t := by
    rw [initialAcl, if_neg (nsps.nonzero nsp hnsp)]
    exact List.not_mem_nil
  exact mem_inspectSchemaDefault.mpr ⟨_, mem_exploded.mpr ⟨_, mem_alter howner hitem hnew, item,
    mem_aclupdate.mpr (.inr rfl), rfl⟩, nsp, hnsp, rfl, object, ⟨hobject, htypes⟩, rfl⟩

/-- Nobody but the owner has a row on `ROUTINES`: entries are read as `FUNCTIONS`. -/
theorem routines_not_mem {owner p grantee : String} (hother : grantee ≠ owner) :
    .globalDefault owner p "ROUTINES" grantee ∉ inspectGlobalDefault acls types := by
  intro h
  obtain ⟨g, hg, _, object, ⟨hobject, _⟩, hrow⟩ := mem_inspectGlobalDefault.mp h
  obtain ⟨rfl, _, rfl, rfl⟩ := Row.globalDefault.inj hrow
  rcases List.mem_append.mp hg with hg | hg
  · rcases List.mem_append.mp hg with hg | hg
    · obtain ⟨role, _, hg⟩ := List.mem_flatMap.mp hg
      obtain ⟨hard, _, rfl⟩ := List.mem_map.mp hg
      exact hother rfl
    · obtain ⟨role, _, rfl⟩ := List.mem_map.mp hg
      simp at hobject
  · obtain ⟨⟨_, _, t, _⟩, _, item, _, rfl⟩ := mem_exploded.mp hg
    cases t <;> simp [globalObject] at hobject

/-- What is granted on a class for the whole database is read back, but on routines. -/
theorem global_row_iff (howner : ∃ role ∈ roles.rows, role.oid = item.grantor)
    (hitem : roles.Known item.grantee) (hother : item.grantee ≠ item.grantor)
    (ht : t ∈ [ObjType.r, .S, .f]) (hobject : schemaObject t = some object)
    (htypes : item.privilege ++ " ON " ++ object ∈ types) :
    .globalDefault (roles.nameOf item.grantor) item.privilege object (roles.nameOf item.grantee) ∈
        inspectGlobalDefault (alter acls version 0 t item howner hitem) types ↔
      object ≠ "ROUTINES" := by
  obtain rfl : (schemaObject t).getD "" = object := by rw [hobject]; rfl
  simp only [List.mem_cons, List.not_mem_nil, or_false] at ht
  rcases ht with rfl | rfl | rfl
  · exact iff_of_true (global_mem_alter howner hitem hother rfl rfl htypes) (by decide)
  · exact iff_of_true (global_mem_alter howner hitem hother rfl rfl htypes) (by decide)
  · refine iff_of_false (routines_not_mem fun hname => hother ?_) (by decide)
    exact PgRoles.nameOf_inj hitem (.inr howner) hname

end Read

/-- Which of the two ACLs. -/
def kindOf (acl : String) : Kind := if acl = "GLOBAL DEFAULT" then .globalDefault else .schemaDefault

/-- The query of the ACL. -/
def inspectDefault {roles : PgRoles} (acl : String) (nsps : Namespaces) (acls : DefaultAcls roles)
    (types : List String) : List Row :=
  if acl = "GLOBAL DEFAULT" then inspectGlobalDefault acls types
  else inspectSchemaDefault nsps acls types

section Idempotent
variable {reg : Registry} {dbs : DBMap} {database : Database} {managed : List String}
  {roles : PgRoles} {nsps : Namespaces} {priv : Privilege} {e : Grant}

/-- A grant of a `__default_*__` profile for managed roles and schema that are there, the
grantee not being the owner. -/
structure Wanted (reg : Registry) (dbs : DBMap) (database : Database) (managed : List String)
    (roles : PgRoles) (nsps : Namespaces) (priv : Privilege) (e : Grant) : Prop where
  listed : priv ∈ defaultPrivileges
  generated : ∃ env rule values g, GrantRule.grant env reg rule values priv = .ok g ∧
    Expands reg dbs database g e
  owner : e.owner ∈ managed ∧ ∃ role ∈ roles.rows, role.rolname = e.owner
  grantee : e.grantee ∈ managed ∧
    (e.grantee = "public" ∨ ∃ role ∈ roles.rows, role.rolname = e.grantee)
  other : e.grantee ≠ e.owner
  schema : priv.on = "SCHEMA DEFAULT" →
    e.schema ∈ database.schemas ∧ ∃ nsp ∈ nsps.rows, nsp.nspname = e.schema

/-- Once granted, the grant is inspected and the next run leaves it alone. -/
def Settled (version : Nat) (reg : Registry) (dbs : DBMap) (database : Database)
    (managed : List String) (nsps : Namespaces) (acls : DefaultAcls roles) (e : Grant) : Prop :=
  ∃ acls' current, alterDefault nsps version acls e = some acls' ∧
    inspect reg dbs database e.acl managed
      (.ok (inspectDefault e.acl nsps acls' (Dict.listAt reg.managedACLs e.acl))) = .ok current ∧
    e ∈ current ∧ ∀ wanted, e ∈ wanted →
      .grant e ∉ (diff current wanted).map SyncQuery.stmt ∧
      .revoke e ∉ (diff current wanted).map SyncQuery.stmt

theorem fits_inspectDefault {acl : String} {acls : DefaultAcls roles} {types : List String} :
    ∀ r ∈ inspectDefault acl nsps acls types, (kindOf acl).fits r = true := by
  intro r hr
  unfold inspectDefault at hr
  unfold kindOf
  split at hr
  · obtain ⟨_, _, _, _, _, rfl⟩ := mem_inspectGlobalDefault.mp hr
    rw [if_pos ‹_›]
    rfl
  · obtain ⟨_, _, _, _, _, _, _, rfl⟩ := mem_inspectSchemaDefault.mp hr
    rw [if_neg ‹_›]
    rfl

/-- The two ACLs are those of `init`. -/
theorem default_acl (hreg : reg.acls = builtinRegistry) {acl : String}
    (h : acl = "GLOBAL DEFAULT" ∨ acl = "SCHEMA DEFAULT") :
    (reg.acl acl).name = acl ∧ (reg.acl acl).IsA (kindOf acl) := by
  have hall : ∀ acl ∈ ["GLOBAL DEFAULT", "SCHEMA DEFAULT"], ∃ a ∈ builtinACLs,
      builtinRegistry[(acl : String)]? = some a ∧ a.name = acl ∧ a.kind = kindOf acl := by
    decide +kernel
  obtain ⟨a, ha, hget, hname, hkind⟩ := hall acl (by simpa using h)
  rw [Registry.acl, hreg, hget, ← hkind]
  exact ⟨hname, isA_kind a ha⟩

/-- What follows of a wanted grant once its profile is registered. -/
structure Ready (reg : Registry) (dbs : DBMap) (database : Database) (managed : List String)
    (priv : Privilege) (e : Grant) : Prop where
  shaped : (kindOf priv.on).Shaped priv.on database.name e
  type : e.type = priv.type
  object : e.object = priv.object
  seen : Seen managed dbs database e
  managed : e.type ++ " ON " ++ e.object ∈ Dict.listAt reg.managedACLs priv.on

theorem grant_object {env : Ldap.Env} {rule : GrantRule} {values : Option Values} {g : Grant}
    (h : GrantRule.grant env reg rule values priv = .ok g) (hu : (reg.acl priv.on).uses "object" = true) :
    g.object = priv.object := by
  obtain ⟨_, _, h⟩ := bind_eq_ok.mp h
  obtain ⟨_, _, h⟩ := bind_eq_ok.mp h
  obtain ⟨_, _, h⟩ := bind_eq_ok.mp h
  obtain ⟨_, _, h⟩ := bind_eq_ok.mp h
  cases h
  exact if_pos hu

theorem Wanted.ready {privs : List Privilege} {initial : Registry}
    (h : Wanted reg dbs database managed roles nsps priv e) (hreg : reg.acls = builtinRegistry)
    (hregisters : Registers privs initial reg) (hpriv : priv ∈ privs) (hdb : database.name ∈ dbs.map) :
    Ready reg dbs database managed priv e := by
  have hon := (default_class priv h.listed).1
  obtain ⟨hname, ha⟩ := default_acl hreg hon
  obtain ⟨env, rule, values, g, hgrant, hexpands⟩ := h.generated
  obtain ⟨hacl, htype, hfields⟩ := grant_fields hgrant
  have hself : reg.acl (reg.acl priv.on).name = reg.acl priv.on := by rw [hname]
  have hshaped := shaped_of_expands ha hself (hacl.trans hname.symm) hfields hexpands
  rw [hname] at hshaped
  have hplaces : (kindOf priv.on).placeholders.owner = true ∧
      (kindOf priv.on).placeholders.object = true ∧ (kindOf priv.on).instanceWide = false := by
    unfold kindOf
    split <;> decide
  have hetype : e.type = priv.type := by rw [hexpands.same]; exact htype
  have heobject : e.object = priv.object := by
    have hobject : e.object = g.object := by rw [hexpands.same]
    exact hobject.trans <| grant_object hgrant ((congrArg Placeholders.object ha.uses).trans hplaces.2.1)
  have hdatabase : e.database = database.name := by
    have := hshaped.database
    rwa [if_neg (by simp [hplaces.2.2])] at this
  refine ⟨hshaped, hetype, heobject, ⟨⟨.inr h.owner.1, ?_, .inr (hdatabase ▸ hdb)⟩,
    fun _ => h.grantee.1⟩, ?_⟩
  · rcases hon with hon | hon
    · exact .inl (hshaped.schema (by rw [hon]; rfl))
    · exact .inr (h.schema hon).1
  · have hsame : initial.acl priv.on = reg.acl priv.on := by
      rw [Registry.acl, Registry.acl, hregisters.acls]
    have hentry : (reg.acl priv.on).entry priv.type priv.object = e.type ++ " ON " ++ e.object := by
      rw [hetype, heobject]
      exact if_pos ((congrArg Placeholders.owner ha.uses).trans hplaces.1)
    exact (hregisters.managed _ _).mpr (.inr ⟨priv, hpriv, rfl, hsame ▸ hentry⟩)

/-- Being settled is a matter of one row. -/
theorem settled_iff {acls acls' : DefaultAcls roles} (hname : (reg.acl priv.on).name = priv.on)
    (ha : (reg.acl priv.on).IsA (kindOf priv.on)) (hdb : database.name ∈ dbs.map)
    (hready : Ready reg dbs database managed priv e)
    (hrun : alterDefault nsps version acls e = some acls') :
    Settled version reg dbs database managed nsps acls e ↔ (kindOf priv.on).rowOf e ∈
      inspectDefault priv.on nsps acls' (Dict.listAt reg.managedACLs priv.on) := by
  have hshaped := hready.shaped
  have hfits : ∀ r ∈ inspectDefault priv.on nsps acls' (Dict.listAt reg.managedACLs priv.on),
      (kindOf priv.on).fits r = true := fits_inspectDefault
  have hself : reg.acl (reg.acl priv.on).name = reg.acl priv.on := by rw [hname]
  obtain ⟨current, hcurrent, hreports⟩ := inspect_rows ha hself hdb managed hfits
  rw [hname] at hcurrent hreports
  have hmem : e ∈ current ↔ (kindOf priv.on).rowOf e ∈
      inspectDefault priv.on nsps acls' (Dict.listAt reg.managedACLs priv.on) := by
    rw [hreports]
    constructor
    · rintro ⟨r, hr, rfl, _⟩
      rwa [Kind.rowOf_grantOf (hfits r hr)]
    · exact fun hrow => ⟨_, hrow, (Kind.grantOf_rowOf hshaped).symm, hready.seen⟩
  rw [← hmem, Settled, hrun, hshaped.acl]
  constructor
  · rintro ⟨_, _, hacls, hcurrent', he, _⟩
    cases hacls
    cases hcurrent.symm.trans hcurrent'
    exact he
  · intro he
    refine ⟨acls', current, rfl, hcurrent, he, fun wanted hwanted => ⟨fun h => ?_, fun h => ?_⟩⟩
    · exact (grant_mem_diff.mp h).2.1 he
    · refine (revoke_mem_diff.mp h).2.1 ?_
      rwa [show { e with isPartial := false } = e by rw [← hshaped.whole]]

/-- **Granting a default privilege of a profile settles it** if and only if it is not on the
routines of the whole database, which the query reads as functions. -/
theorem default_settled_iff (version : Nat) (acls : DefaultAcls roles) {initial : Registry}
    {o : Order} {profiles : Dict (List Privilege)} {name : String}
    (hbuiltin : initial.acls = builtinRegistry)
    (hregister : initial.registerProfiles o profiles = .ok reg)
    (hlisted : priv ∈ Dict.listAt profiles name) (hdb : database.name ∈ dbs.map)
    (h : Wanted reg dbs database managed roles nsps priv e) :
    Settled version reg dbs database managed nsps acls e ↔
      ¬ (priv.on = "GLOBAL DEFAULT" ∧ priv.object = "ROUTINES") := by
  obtain ⟨privs, hregisters, hprivs⟩ := registerProfiles_ok hregister
  have hreg : reg.acls = builtinRegistry := hregisters.acls.trans hbuiltin
  have hready := h.ready hreg hregisters ((hprivs priv).mpr ⟨name, hlisted⟩) hdb
  obtain ⟨hon, t, ht, hkeyword, hobject, htype⟩ := default_class priv h.listed
  obtain ⟨hname, ha⟩ := default_acl hreg hon
  obtain ⟨owner, howner, hownername⟩ := h.owner.2
  obtain ⟨grantee, hgrantee, hgranteename⟩ := granteeOf_eq h.grantee.2
  rw [← hready.object] at hkeyword hobject
  have htype : e.type ∈ classPrivileges version t := hready.type ▸ classPrivileges_mono htype
  have hrun : ∀ {nsp}, namespaceOf nsps e = some nsp → alterDefault nsps version acls e = _ :=
    fun hnsp => alterDefault_eq howner hownername hnsp hkeyword hgrantee htype
  have howneroid : roles.nameOf owner.oid = e.owner := (PgRoles.nameOf_role howner).trans hownername
  rcases hon with hon | hon
  · have hnsp : namespaceOf nsps e = some 0 := if_pos (hready.shaped.acl.trans hon)
    have hother : grantee.1 ≠ owner.oid := fun heq =>
      h.other (by rw [← hgranteename, ← howneroid, heq])
    rw [settled_iff hname ha hdb hready (hrun hnsp), kindOf, inspectDefault, if_pos hon, if_pos hon,
      and_iff_right hon, ← hready.object, Kind.rowOf, ← howneroid, ← hgranteename]
    exact global_row_iff _ _ hother ht hobject hready.managed
  · obtain ⟨_, nsp, hin, hschema⟩ := h.schema hon
    have hglobal : priv.on ≠ "GLOBAL DEFAULT" := by rw [hon]; decide
    have hnsp : namespaceOf nsps e = some nsp.oid := by
      rw [namespaceOf, if_neg (hready.shaped.acl ▸ hglobal),
        (find_key_eq_some nsps.names).mpr ⟨hin, hschema⟩]
      rfl
    rw [settled_iff hname ha hdb hready (hrun hnsp), kindOf, inspectDefault, if_neg hglobal,
      if_neg hglobal]
    refine iff_of_true ?_ fun hroutines => hglobal hroutines.1
    rw [Kind.rowOf, ← howneroid, ← hgranteename, ← hschema]
    exact schema_mem_alter hin _ _ hobject hready.managed

end Idempotent

/-! The owner of the examples wants privileges for alice on what they create, and
nothing is stored yet. -/
open Ldap.Sample Sample

def noDefaults : DefaultAcls sampleRoles where
  rows := []
  keys := by decide
  owners := by decide
  grantees := nofun

/-- A profile with one privilege on a class, for the whole database. -/
def profileOf (priv : Privilege) : Dict (List Privilege) := (∅ : Dict _).insert "profile" [priv]

def registered (priv : Privilege) : Registry :=
  (initial.registerProfiles Order.sorted (profileOf priv)).toOption.getD initial

theorem registered_ok {priv : Privilege} (h : priv.on ∈ builtinRegistry) :
    initial.registerProfiles Order.sorted (profileOf priv) = .ok (registered priv) := by
  have hknown : ∀ (name : String), ∀ p ∈ Dict.listAt (profileOf priv) name, p.on ∈ initial.acls := by
    intro name p hp
    rw [profileOf, Dict.listAt_insert] at hp
    split at hp
    · exact List.mem_singleton.mp hp ▸ h
    · simp at hp
  obtain ⟨reg, hreg⟩ := exists_registerProfiles (o := Order.sorted) hknown
  rw [registered, hreg]
  rfl

/-- What the rule generates, in the database. -/
def toAlice (priv : Privilege) : Grant where
  owner := "owner"
  grantee := "alice"
  acl := priv.on
  type := priv.type
  object := priv.object
  database := "app"

def selectTables : Privilege := ⟨"SELECT", "GLOBAL DEFAULT", "TABLES"⟩

def executeRoutines : Privilege := ⟨"EXECUTE", "GLOBAL DEFAULT", "ROUTINES"⟩

theorem tables_settled : initial.registerProfiles Order.sorted (profileOf selectTables) =
      .ok (registered selectTables) ∧
    Settled 17 (registered selectTables) onlyApp Sample.app ["owner", "alice"] sampleNamespaces noDefaults
      (toAlice selectTables) := by
  have hok : initial.registerProfiles Order.sorted (profileOf selectTables) =
    .ok (registered selectTables) := registered_ok (by decide +kernel)
  have hlisted : selectTables ∈ Dict.listAt (profileOf selectTables) "profile" := by decide +kernel
  have hdb : Sample.app.name ∈ onlyApp.map := by decide +kernel
  have hexpands : Expands (registered selectTables) onlyApp Sample.app
      { toAlice selectTables with database := "__all__" } (toAlice selectTables) :=
    ⟨rfl, by decide +kernel, by decide +kernel, by decide +kernel⟩
  have hwanted : Wanted (registered selectTables) onlyApp Sample.app ["owner", "alice"] sampleRoles
      sampleNamespaces selectTables (toAlice selectTables) := by
    exact ⟨by decide +kernel, ⟨env, { rule "__all__" with owner := literal "owner" }, none, _,
      by decide +kernel, hexpands⟩, by decide, by decide, by decide, by decide⟩
  exact ⟨hok, (default_settled_iff 17 noDefaults rfl hok hlisted hdb hwanted).mpr (by decide)⟩

/-- The grant on routines is executed, and wanted again on the next run. -/
theorem routines_granted_again : initial.registerProfiles Order.sorted (profileOf executeRoutines) =
      .ok (registered executeRoutines) ∧
    ∃ acls current, alterDefault sampleNamespaces 17 noDefaults (toAlice executeRoutines) = some acls ∧
      inspect (registered executeRoutines) onlyApp app "GLOBAL DEFAULT" ["owner", "alice"]
        (.ok (inspectDefault "GLOBAL DEFAULT" sampleNamespaces acls
          (Dict.listAt (registered executeRoutines).managedACLs "GLOBAL DEFAULT"))) = .ok current ∧
      .grant (toAlice executeRoutines) ∈
        (diff current [toAlice executeRoutines]).map SyncQuery.stmt := by
  exact ⟨registered_ok (by decide +kernel), _, _, rfl, rfl, by decide +kernel⟩

end Ldap2pg.Privileges.Altered
