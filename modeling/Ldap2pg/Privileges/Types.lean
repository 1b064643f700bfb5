import Ldap2pg.Lib.Loops
import Ldap2pg.Ldap

/-! # `internal/privileges`: ACLs, grants and the rules that generate them

The registries filled at start-up and by the configuration are one record. The
fields of a grant that matter depend on the placeholders of the `GRANT` template
of its ACL: `ACL.uses` searches the text, as the source does. -/
namespace Ldap2pg.Privileges
open Lib Pyfmt Ldap

variable {values : Option Values}

structure ACL where
  name : String := ""
  scope : String := ""
  grant : String := ""
  revoke : String := ""
  deriving DecidableEq, Inhabited

/-- `strings.Contains`. -/
def contains (s sub : String) : Bool := s.toList.tails.any sub.toList.isPrefixOf

/-- `ACL.Uses`: the placeholder is in the grant query. -/
def ACL.uses (a : ACL) (k : String) : Bool := contains a.grant ("<" ++ k ++ ">")

structure Privilege where
  type : String
  on : String
  object : String := ""
  deriving DecidableEq, Repr

/-- The `acls`, `profiles` and `managedACLs` registries. -/
structure Registry where
  acls : Dict ACL
  profiles : Dict (List Privilege)
  managedACLs : Dict (List String)

/-- A read of the map: the zero ACL for an unknown name. -/
def Registry.acl (reg : Registry) (name : String) : ACL := reg.acls[name]?.getD default

structure Grant where
  owner : String := ""
  grantee : String := ""
  acl : String := ""
  type : String := ""
  database : String := ""
  schema : String := ""
  object : String := ""
  isPartial : Bool := false
  deriving DecidableEq, Repr

structure GrantRule where
  owner : Format
  privilege : Format
  database : Format
  schema : Format
  role : Format
  deriving DecidableEq

def GrantRule.formats (r : GrantRule) : List Format :=
  [r.owner, r.privilege, r.database, r.schema, r.role]

def GrantRule.isStatic (r : GrantRule) : Bool := r.formats.all Format.isStatic

/-- A field of a grant: rendered if the ACL has it, otherwise empty. -/
def formatIf (used : Bool) (env : Env) (f : Format) (values : Option Values) : Except Panic String :=
  if used then f.format env.toStrings values else .ok ""

/-- The grant of one privilege of the profile. -/
def GrantRule.grant (env : Env) (reg : Registry) (r : GrantRule) (values : Option Values)
    (priv : Privilege) : Except Panic Grant := do
  let acl := reg.acl priv.on
  let grantee ← r.role.format env.toStrings values
  let owner ← formatIf (acl.uses "owner") env r.owner values
  let schema ← formatIf (acl.uses "schema") env r.schema values
  let database ← formatIf (acl.scope != "instance" || acl.uses "database") env r.database values
  return { acl := priv.on, grantee := grantee, type := priv.type, owner := owner, schema := schema,
           object := if acl.uses "object" then priv.object else "", database := database }

/-- `vchan`: the values to render with, a single nil map without an entry. -/
def GrantRule.vchan (env : Env) (o : Order) (r : GrantRule) (results : Result) :
    List (Option Values) :=
  match results.entry with
  | none => [none]
  | some entry => (results.generateValues env o entry r.formats).map some

/-- The grants of the profile that the rule names. -/
def GrantRule.grants (env : Env) (reg : Registry) (r : GrantRule) (values : Option Values) :
    Except Panic (List Grant) := do
  let profile ← r.privilege.format env.toStrings values
  (reg.profiles[profile]?.getD []).mapM (r.grant env reg values)

/-- `GrantRule.Generate`. -/
def GrantRule.generate (env : Env) (reg : Registry) (o : Order) (r : GrantRule)
    (results : Result) : Except Panic (List Grant) := do
  let grants ← (r.vchan env o results).mapM (r.grants env reg)
  return grants.flatten

variable {r : GrantRule}

theorem GrantRule.static_formats (h : r.isStatic = true) :
    ∀ f ∈ r.formats, f.isStatic = true := List.all_eq_true.mp h

theorem formatIf_ok (env : Env) {f : Format} (used : Bool)
    (h : values.isSome = true ∨ f.isStatic = true) : ∃ s, formatIf used env f values = .ok s := by
  cases used with
  | false => exact ⟨_, rfl⟩
  | true => exact format_ok h

/-- With values, or without fields, a rule renders its grants. -/
theorem GrantRule.grant_ok {env : Env} (reg : Registry)
    (h : values.isSome = true ∨ r.isStatic = true) (priv : Privilege) :
    ∃ g, r.grant env reg values priv = .ok g := by
  have hf : ∀ f ∈ r.formats, values.isSome = true ∨ f.isStatic = true :=
    fun f hmem => h.imp_right fun hs => static_formats hs f hmem
  obtain ⟨grantee, hgrantee⟩ : ∃ s, r.role.format env.toStrings values = .ok s :=
    format_ok (hf r.role (by simp [formats]))
  obtain ⟨owner, howner⟩ := formatIf_ok env ((reg.acl priv.on).uses "owner")
    (hf r.owner (by simp [formats]))
  obtain ⟨schema, hschema⟩ := formatIf_ok env ((reg.acl priv.on).uses "schema")
    (hf r.schema (by simp [formats]))
  obtain ⟨database, hdatabase⟩ := formatIf_ok env
    ((reg.acl priv.on).scope != "instance" || (reg.acl priv.on).uses "database")
    (hf r.database (by simp [formats]))
  exact ⟨_, by rw [GrantRule.grant, hgrantee, howner, hschema, hdatabase]; rfl⟩

theorem GrantRule.grants_ok (env : Env) (reg : Registry)
    (h : values.isSome = true ∨ r.isStatic = true) : ∃ l, r.grants env reg values = .ok l := by
  obtain ⟨profile, hprofile⟩ : ∃ s, r.privilege.format env.toStrings values = .ok s :=
    format_ok (h.imp_right fun hs => static_formats hs _ (by simp [formats]))
  unfold GrantRule.grants
  rw [hprofile]
  exact exists_mapM_ok fun priv _ => grant_ok reg h priv

theorem GrantRule.generate_ok {env : Env} (reg : Registry) (o : Order) {results : Result}
    (h : results.entry.isSome = true ∨ r.isStatic = true) :
    ∃ grants, r.generate env reg o results = .ok grants := by
  have hvalues : ∀ values ∈ r.vchan env o results, values.isSome = true ∨ r.isStatic = true := by
    intro values hmem
    unfold vchan at hmem
    cases hentry : results.entry with
    | none => rw [hentry] at h; exact .inr (h.resolve_left (by simp))
    | some entry =>
      rw [hentry] at hmem
      obtain ⟨v, _, rfl⟩ := List.mem_map.mp hmem
      exact .inl rfl
  obtain ⟨grants, hgrants⟩ := exists_mapM_ok fun values hmem =>
    grants_ok env reg (hvalues values hmem)
  exact ⟨grants.flatten, by rw [generate, hgrants]; rfl⟩

end Ldap2pg.Privileges
