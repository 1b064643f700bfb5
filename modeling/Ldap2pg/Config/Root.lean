import Ldap2pg.Config.Role
import Ldap2pg.Config.Search
import Ldap2pg.Lib.Layout
import Ldap2pg.Privileges.Inclusion

/-! # The whole document, from YAML to the decoder

`NormalizeConfigRoot` goes through the sections of the configuration. A want rule has a
search, role rules and grant rules, each normalised and split in several ones. The queries
of the section on Postgres are left to the decoder, which calls `Instantiate`. -/
namespace Ldap2pg.Config
open Lib Normalize Privileges

/-! ## Grant rules -/

/-- The defaults of a grant rule. -/
def defaultGrantRule : Dict Value :=
  ((∅ : Dict Value).insert "owners" (.any (.str "__auto__"))).insert "schemas"
    (.any (.str "__all__")) |>.insert "databases" (.any (.str "__all__"))

/-- The names of keys, each with another one that may stand for it. -/
def grantAliases : List (String × String) :=
  [("owners", "owner"), ("privileges", "privilege"), ("databases", "database"), ("schemas", "schema"),
   ("roles", "to"), ("roles", "grantee"), ("roles", "role")]

/-- The body of the loop over the keys of a grant rule. -/
def listKey (sprint : Yaml → String) (rule : Dict Value) (k : String) : Except Fault (Dict Value) := do
  let l ← (stringList sprint (rule[k]?.getD (.any .null))).mapError (Fault.wrap k)
  return rule.insert k (.strings l)

/-- `NormalizeGrantRule`. -/
def normalizeGrantRule (sprint : Yaml → String) (o : Order) (yaml : Yaml) :
    Except Fault (Dict Value) :=
  match yaml.asMap with
  | none => .error (.error "bad type")
  | some yamlMap => do
    let yamlMap ← grantAliases.foldlM (fun m names => aliasKey m names.1 names.2) yamlMap
    let rule := Dict.copy defaultGrantRule (yamlMap.map fun _ y => .any y)
    let keys := ["owners", "privileges", "databases", "schemas", "roles"]
    let rule ← keys.foldlM (listKey sprint) rule
    spuriousKeys o (rule.map fun _ v => v.yaml) keys
    return rule

/-- `strings.TrimSuffix(k, "s")`. -/
def singular (k : String) : String :=
  if k.toList.getLast? = some 's' then String.ofList k.toList.dropLast else k

/-- `DuplicateGrantRules`. -/
def duplicateGrantRules (yaml : Dict Value) : Except Fault (List (Dict Yaml)) := do
  let lists ← ["owners", "databases", "schemas", "roles", "privileges"].mapM fun k => do
    return (k, ← (yaml[k]?.getD (.any .null)).asStrings)
  let fields := lists.filter fun kl => kl.2.length > 0
  return (Lists.product (fields.map Prod.snd)).map fun combination =>
    Dict.fill (fun kc => singular kc.1) (fun kc => .str kc.2) ∅ ((fields.map Prod.fst).zip combination)

/-! ## Want rules -/

/-- The defaults of a want rule. -/
def defaultWantRule : Dict Yaml :=
  ((∅ : Dict Yaml).insert "description" (.str "")).insert "ldapsearch" (.map [])
    |>.insert "roles" (.list []) |>.insert "grants" (.list [])

/-- The body of the loop over role rules. -/
def wantRole (sprint : Yaml → String) (o : Order) (ri : Yaml × Nat) : Except Fault (List Yaml) := do
  let rule ← (normalizeRoleRule sprint (o.sub ri.2) ri.1).mapError
    (Fault.wrap ("roles[" ++ toString ri.2 ++ "]"))
  let rules ← duplicateRoleRules rule
  return rules.map yamlOf

/-- The body of the loop over grant rules. -/
def wantGrant (sprint : Yaml → String) (o : Order) (ri : Yaml × Nat) : Except Fault (List Yaml) := do
  let rule ← (normalizeGrantRule sprint (o.sub ri.2) ri.1).mapError
    (Fault.wrap ("grants[" ++ toString ri.2 ++ "]"))
  let rules ← duplicateGrantRules rule
  return rules.map .ofMap

/-- `NormalizeWantRule`. -/
def normalizeWantRule (sprint : Yaml → String) (o : Order) (yaml : Yaml) : Except Fault (Dict Yaml) :=
  match yaml.asMap with
  | none => .error (.error ("bad type: " ++ yaml.typeName ++ ", must be a map"))
  | some yamlMap => do
    let yamlMap ← aliasKey yamlMap "ldapsearch" "ldap"
    let yamlMap ← aliasKey yamlMap "roles" "role"
    let yamlMap ← aliasKey yamlMap "grants" "grant"
    let rule := Dict.copy defaultWantRule yamlMap
    let search ← (normalizeLdapSearch (o.sub 0) (rule["ldapsearch"]?.getD .null)).mapError
      (Fault.wrap "ldapsearch")
    let rule := rule.insert "ldapsearch" (.ofMap search)
    let roles ← (Normalize.list (rule["roles"]?.getD .null)).zipIdx.mapM (wantRole sprint (o.sub 1))
    let rule := rule.insert "roles" (.list roles.flatten)
    let grants ← (Normalize.list (rule["grants"]?.getD .null)).zipIdx.mapM (wantGrant sprint (o.sub 2))
    let rule := rule.insert "grants" (.list grants.flatten)
    spuriousKeys (o.sub 3) rule ["description", "ldapsearch", "roles", "grants"]
    return rule

/-- `NormalizeRules`. -/
def normalizeRules (sprint : Yaml → String) (o : Order) (yaml : Yaml) :
    Except Fault (List (Dict Yaml)) :=
  match yaml.asList with
  | none => .error (.error ("bad type: " ++ yaml.typeName ++ ", must be a list"))
  | some rawRules => rawRules.zipIdx.mapM fun ri =>
    (normalizeWantRule sprint (o.sub ri.2) ri.1).mapError (Fault.wrap ("item[" ++ toString ri.2 ++ "]"))

/-! ## Sections -/

/-- `NormalizePostgres`. -/
def normalizePostgres (yaml : Yaml) : Except Fault Unit :=
  match yaml.asMap with
  | none => .error (.error ("bad type: " ++ yaml.typeName ++ ", must be a map"))
  | some _ => .ok ()

/-- The body of the loop of `NormalizeACLs`. -/
def normalizeACL (o : Order) (m : Dict Yaml) (ki : String × Nat) : Except Fault Unit :=
  match (m[ki.1]?.getD .null).asMap with
  | none => .error (.error (ki.1 ++ ": must be a map"))
  | some acl =>
    (spuriousKeys (o.sub ki.2) acl ["scope", "inspect", "grant", "revoke"]).mapError (Fault.wrap ki.1)

/-- `NormalizeACLs`. -/
def normalizeACLs (o : Order) (yaml : Yaml) : Except Fault Yaml :=
  match yaml.asMap with
  | none => .error (.error "must be a map")
  | some m => do
    let _ ← ((o.sub 0).range m.keys).zipIdx.mapM (normalizeACL (o.sub 1) m)
    return yaml

/-- A section that may be missing. -/
def section? (config : Dict Yaml) (name : String) (normalise : Yaml → Except Fault Yaml) :
    Except Fault (Dict Yaml) :=
  match config[name]? with
  | none => .ok config
  | some value => do
    let value ← (normalise value).mapError (Fault.wrap name)
    return config.insert name value

/-- `NormalizeConfigRoot`. -/
def normalizeConfigRoot (u : Pyfmt.Strings) (sprint : Yaml → String) (o : Order) (yaml : Yaml) :
    Except Fault (Dict Yaml) :=
  match yaml.asMap with
  | none => .error (.error ("bad type: " ++ yaml.typeName))
  | some config => do
    let config ← section? config "postgres" fun value => do
      normalizePostgres value
      return value
    let config ← section? config "acls" (normalizeACLs (o.sub 0))
    let config ← section? config "privileges" fun value => do
      let profiles ← normalizeProfiles u (o.sub 1) value
      return .ofMap (profiles.map fun _ items => .list items)
    let config ← aliasKey config "rules" "sync_map"
    match config["rules"]? with
    | none => .error (.error "missing rules")
    | some value =>
      let syncMap ← (normalizeRules sprint (o.sub 2) value).mapError (Fault.wrap "rules")
      return config.insert "rules" (.list (syncMap.map .ofMap))

/-! ## Queries -/

/-- How `Instantiate` ends when it returns no querier. -/
inductive QueryFault where
  | assertion (got want : String)
  | panic (message : String)
  | error (err : String)
  deriving DecidableEq

/-- `inspect.Querier`. -/
inductive Querier (T : Type) where
  | sql (text : String)
  | rows (l : List T)

/-- The error of a value, under a name. -/
def QueryFault.wrap (name : String) : QueryFault → QueryFault
  | .error err => .error (name ++ ": " ++ err)
  | fault => fault

/-- `YamlTo[string]`. -/
def yamlToString (raw : Yaml) : Except QueryFault String :=
  match raw.asString with
  | some s => .ok s
  | none => .error (.assertion raw.typeName "string")

/-- `YamlToSchema`. -/
def yamlToSchema (raw : Yaml) : Except QueryFault Postgres.Schema :=
  match raw.asString with
  | some s => .ok { name := s, owner := "" }
  | none => .error (.panic "Unsupported schema value.")

/-- `QueryConfig.Instantiate`. -/
def instantiate {T : Type} (yamlTo : Yaml → Except QueryFault T) (value : Yaml) :
    Except QueryFault (Querier T) :=
  match value with
  | .str s => .ok (.sql (String.ofList (Layout.trimSpace s.toList)))
  | .list rawList => do
    let rows ← rawList.mapM fun rawRow => (yamlTo rawRow).mapError (QueryFault.wrap "bad value")
    return .rows rows
  | _ => .error (.error "bad query")

end Ldap2pg.Config
