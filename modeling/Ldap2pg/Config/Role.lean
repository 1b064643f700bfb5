import Ldap2pg.Lib.Decode
import Ldap2pg.Normalize
import Ldap2pg.Pyfmt.Parse
import Ldap2pg.Roles.Types

/-! # Role rules, from YAML to `wanted.RoleRule`

A role rule is a name, or a map. The map is completed with defaults, and the names of its
keys, its lists, its options and its parents are made regular. A rule with several names
is then several rules. -/
namespace Ldap2pg.Config
open Lib Normalize Pyfmt Roles

/-- A value of a normalised map: one of the document, or one that a normaliser made, which
has a type of its own. -/
inductive Value where
  | any (y : Yaml)
  | strings (l : List String)
  | maps (l : List (Dict Yaml))

/-- The value, for a decoder. -/
def Value.yaml : Value → Yaml
  | .any y => y
  | .strings l => .list (l.map .str)
  | .maps l => .list (l.map .ofMap)

/-- The `%T` of a value. -/
def Value.typeName : Value → String
  | .any y => y.typeName
  | .strings _ => "[]string"
  | .maps _ => "[]map[string]interface \x7b\x7d"

/-- The type assertion `value.([]string)`. -/
def Value.asStrings : Value → Except Fault (List String)
  | .strings l => .ok l
  | value => .error (.assertion value.typeName "[]string")

/-- `normalize.List`, on any value. -/
def listOf : Value → List Yaml
  | .any y => Normalize.list y
  | value => Normalize.list value.yaml

/-- The map, as a decoder gets it. -/
def yamlOf (m : Dict Value) : Yaml := .ofMap (m.map fun _ v => v.yaml)

/-- `normalize.Boolean`. -/
def boolean : Yaml → Yaml
  | .str s =>
    if s ∈ ["y", "Y", "yes", "Yes", "YES", "on", "On", "ON"] then .str "true"
    else if s ∈ ["n", "N", "no", "No", "NO", "off", "Off", "OFF"] then .str "false"
    else .str s
  | y => y

/-- `normalize.StringList`. `sprint` is the `%v` of a value. -/
def stringList (sprint : Yaml → String) : Value → Except Fault (List String)
  | .strings l => .ok l
  | .any .null => .ok []
  | .any (.str s) => .ok [s]
  | .any (.list items) =>
    match items.mapM Yaml.asString with
    | some l => .ok l
    | none => .error (.error "must be string")
  | value => .error (.error ("must be string or list of string, got " ++ sprint value.yaml))

/-! ## Memberships -/

/-- `NormalizeMembership`. -/
def normalizeMembership (o : Order) (raw : Yaml) : Except Fault (Dict Yaml) := do
  let value : Dict Yaml ← match raw with
    | .str s => .ok ((∅ : Dict Yaml).insert "name" (.str s))
    | raw => match raw.asMap with
      | some m => .ok (m.map fun _ v => boolean v)
      | none => .error (.error ("bad type: " ++ raw.typeName))
  if "name" ∈ value then
    spuriousKeys o value ["name", "inherit", "set", "admin"]
    return value
  else .error (.error "missing name")

/-- `NormalizeMemberships`. -/
def normalizeMemberships (o : Order) (raw : Value) : Except Fault (List (Dict Yaml)) :=
  (listOf raw).zipIdx.mapM fun ri =>
    (normalizeMembership (o.sub ri.2) ri.1).mapError
      (Fault.wrap ("parents[" ++ toString ri.2 ++ "]"))

/-! ## Options -/

/-- The options of a role that no option sets. -/
def defaultOptions : List (String × Yaml) :=
  [("SUPERUSER", .bool false), ("INHERIT", .bool true), ("CREATEROLE", .bool false),
   ("CREATEDB", .bool false), ("LOGIN", .bool false), ("REPLICATION", .bool false),
   ("BYPASSRLS", .bool false), ("CONNECTION LIMIT", .int (-1))]

def defaultOptionMap : Dict Yaml := Dict.fill Prod.fst Prod.snd ∅ defaultOptions

/-- One word of an option string. -/
def setOption (value : Dict Yaml) (token : List Char) : Dict Yaml :=
  if token = [] then value
  else if "NO".toList.isPrefixOf token then value.insert (String.ofList (token.drop 2)) (.bool false)
  else value.insert (String.ofList token) (.bool true)

/-- `NormalizeRoleOptions`. -/
def normalizeRoleOptions (o : Order) (yaml : Yaml) : Except Fault (Dict Yaml) := do
  let knownKeys := defaultOptions.map Prod.fst
  match yaml with
  | .null => return defaultOptionMap
  | .str s =>
    let value := (s.toList.splitOn ' ').foldl setOption defaultOptionMap
    spuriousKeys o value knownKeys
    return value
  | yaml => match yaml.asMap with
    | some m =>
      let value := Dict.copy defaultOptionMap (m.map fun _ v => boolean v)
      spuriousKeys o value knownKeys
      return value
    | none => .error (.error ("bad type: " ++ yaml.typeName))

/-! ## Rules -/

/-- The defaults of a role rule. -/
def defaultRule : Dict Value :=
  ((∅ : Dict Value).insert "comment" (.any (.str "Managed by ldap2pg"))).insert "options"
    (.any (.map [])) |>.insert "parents" (.strings [])

def ruleKeys : List String :=
  ["names", "comment", "parents", "options", "config", "before_create", "after_create"]

/-- What `NormalizeRoleRule` does with a map once its keys have their plural names. -/
def completed (sprint : Yaml → String) (o : Order) (yaml : Dict Yaml) :
    Except Fault (Dict Value) := do
  let rule := Dict.copy defaultRule (yaml.map fun _ y => .any y)
  match rule["names"]? with
  | none => .error (.error "missing name")
  | some names =>
    let names ← stringList sprint names
    let parents ← normalizeMemberships (o.sub 0) (rule["parents"]?.getD (.any .null))
    let options ← (normalizeRoleOptions (o.sub 1) (rule["options"]?.getD (.any .null)).yaml).mapError
      (Fault.wrap "options")
    return ((rule.insert "names" (.strings names)).insert "parents" (.maps parents)).insert "options"
      (.any (.ofMap options))

/-- The branch of `NormalizeRoleRule` for maps. -/
def normalizeRoleMap (sprint : Yaml → String) (o : Order) (yaml : Dict Yaml) :
    Except Fault (Dict Value) := do
  let yaml ← aliasKey yaml "names" "name"
  let yaml ← aliasKey yaml "parents" "parent"
  completed sprint o yaml

/-- `NormalizeRoleRule`. -/
def normalizeRoleRule (sprint : Yaml → String) (o : Order) (yaml : Yaml) :
    Except Fault (Dict Value) := do
  let rule ← match yaml with
    | .str name => .ok (defaultRule.insert "names" (.strings [name]))
    | yaml => match yaml.asMap with
      | some m => normalizeRoleMap sprint (o.sub 0) m
      | none => .error (.error ("bad type: " ++ yaml.typeName))
  spuriousKeys (o.sub 1) (rule.map fun _ v => v.yaml) ruleKeys
  return rule

/-- `DuplicateRoleRules`. -/
def duplicateRoleRules (yaml : Dict Value) : Except Fault (List (Dict Value)) := do
  let names ← (yaml["names"]?.getD (.any .null)).asStrings
  return names.map fun name =>
    Dict.copy ((∅ : Dict Value).insert "name" (.any (.str name))) (yaml.erase "names")

/-! ## The decoder -/

/-- `wanted.RoleRule`, as the decoder leaves it. -/
structure RoleRule where
  name : Format := ⟨"", []⟩
  options : Options := {}
  comment : Format := ⟨"", []⟩
  parents : List Format := []
  config : Dict String := ∅
  beforeCreate : Format := ⟨"", []⟩
  afterCreate : Format := ⟨"", []⟩

/-- The case of `decodeMapHook` for formats. The `String` of a `reflect.Value` that is
not a string is a description of it. -/
def decodeFormat : Decoder Format := fun _ path y =>
  match Parse.parse (y.asString.getD ("<" ++ y.typeName ++ " Value>")) with
  | .ok (format, none) => ⟨format, []⟩
  | .ok (_, some err) => ⟨⟨"", []⟩, [.custom path err]⟩
  | .error _ => ⟨⟨"", []⟩, [.custom path "slice bounds out of range"]⟩

/-- The fields of `Options`, under their tags. -/
def optionsFields (scalars : Decode.Scalars) : List (Decode.Field Options) :=
  [Decode.field "SUPERUSER" (Decode.bool scalars) fun super o => { o with super },
   Decode.field "CREATEDB" (Decode.bool scalars) fun createDB o => { o with createDB },
   Decode.field "CREATEROLE" (Decode.bool scalars) fun createRole o => { o with createRole },
   Decode.field "INHERIT" (Decode.bool scalars) fun inherit o => { o with inherit },
   Decode.field "LOGIN" (Decode.bool scalars) fun canLogin o => { o with canLogin },
   Decode.field "REPLICATION" (Decode.bool scalars) fun replication o => { o with replication },
   Decode.field "BYPASSRLS" (Decode.bool scalars) fun byPassRLS o => { o with byPassRLS },
   Decode.field "CONNECTION LIMIT" (Decode.int scalars) fun connLimit o => { o with connLimit }]

def decodeOptions (scalars : Decode.Scalars) : Decoder Options :=
  Decode.record {} (optionsFields scalars)

/-- A `MembershipRule` is a name. -/
def decodeMembership : Decoder Format :=
  Decode.record ⟨"", []⟩ [Decode.field "Name" decodeFormat fun name _ => name]

/-- The fields of `RoleRule`, under their names or tags. -/
def roleFields (scalars : Decode.Scalars) : List (Decode.Field RoleRule) :=
  [Decode.field "Name" decodeFormat fun name r => { r with name },
   Decode.field "Options" (decodeOptions scalars) fun options r => { r with options },
   Decode.field "Comment" decodeFormat fun comment r => { r with comment },
   Decode.field "Parents" (Decode.list decodeMembership) fun parents r => { r with parents },
   Decode.field "Config" (Decode.weakDict (Decode.string scalars)) fun config r => { r with config },
   Decode.field "before_create" decodeFormat fun beforeCreate r => { r with beforeCreate },
   Decode.field "after_create" decodeFormat fun afterCreate r => { r with afterCreate }]

/-- What `DecodeYaml` does with a normalised role rule. -/
def decodeRole (scalars : Decode.Scalars) : Decoder RoleRule :=
  Decode.record {} (roleFields scalars)

/-- A role rule, normalised, duplicated and decoded. -/
def loadRole (sprint : Yaml → String) (scalars : Decode.Scalars) (o : Order) (path : String)
    (yaml : Yaml) : Except Fault (List (Decoded RoleRule)) := do
  let rule ← normalizeRoleRule sprint (o.sub 0) yaml
  let rules ← duplicateRoleRules rule
  return rules.zipIdx.map fun ri => decodeRole scalars ((o.sub 1).sub ri.2) path (yamlOf ri.1)

end Ldap2pg.Config
