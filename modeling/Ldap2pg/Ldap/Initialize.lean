import Ldap2pg.Lib.GoMap
import Ldap2pg.Lib.Layout
import Ldap2pg.Lib.Loops

/-! # `ldap.Initialize`

The options of the LDAP client are loaded from defaults, the environment, the command line
and then a list of files, some of which are named by what was loaded before. A load overrides
the keys that earlier ones set. Keys are flat here: koanf takes a key with its delimiter, a
dot, for a path, which the model leaves out as no option of `ldap.conf` has one. -/
namespace Ldap2pg.Ldap.Initialize
open Lib

/-! ## The sources -/

/-- `strings.TrimPrefix`. -/
def trimStart (start s : List Char) : List Char :=
  if start.isPrefixOf s then s.drop start.length else s

/-- A flag of the command line, with its default if it is not changed. -/
structure Flag where
  name : String
  value : String
  changed : Bool := false

/-- The key of an LDAP flag. The other flags, and an empty key, are left out. -/
def Flag.key (f : Flag) : Option String :=
  if "ldap".toList.isPrefixOf f.name.toList then
    let key := trimStart "LDAP".toList (f.name.toList.map Char.toUpper)
    let key := key.map fun c => if c = '-' then '_' else c
    if key = [] then none else some (String.ofList key)
  else none

/-- The flags that are defined, no two of them for one key. -/
structure CommandLine where
  flags : List Flag
  distinct : (flags.filterMap Flag.key).Nodup

/-- What `Initialize` finds around it. -/
structure System where
  env : Dict String
  commandLine : CommandLine
  /-- `os.UserHomeDir`, empty if it is not known -/
  home : String
  /-- `filepath.Join` -/
  join : String → String → String
  /-- `os.Stat`: the permission bits -/
  mode : String → Except String Nat
  /-- `os.ReadFile`: nothing for a file that does not exist -/
  readFile : String → Except String (Option String)

/-- The defaults. -/
def defaults : Dict String :=
  Dict.fill Prod.fst Prod.snd ∅
    [("URI", "ldap://localhost"), ("NETWORK_TIMEOUT", "30"), ("RC", "ldaprc"),
     ("TLS_REQCERT", "try"), ("TIMEOUT", "30")]

/-- The key of an environment variable. An empty key is left out. -/
def envKey (name : String) : Option String :=
  if "LDAP".toList.isPrefixOf name.toList then
    let key := trimStart "LDAP".toList name.toList
    if key = [] then none else some (String.ofList key)
  else none

/-- What the environment sets. -/
def environment (env : Dict String) : Dict String :=
  Dict.fill Prod.fst Prod.snd ∅ (env.toList.filterMap fun nv => (envKey nv.1).map (·, nv.2))

/-- What the command line sets: a flag that is not changed leaves a key that exists alone. -/
def CommandLine.settings (cl : CommandLine) (k : Dict String) : Dict String :=
  Dict.fill Prod.fst Prod.snd ∅ ((cl.flags.filter fun f => f.changed || f.key.all (· ∉ k)).filterMap
    fun f => f.key.map (·, f.value))

/-! ## Files -/

/-- The lines of a `bufio.Scanner`, which stops at a line it cannot hold. -/
def scanLines (data : List Char) : List (List Char) :=
  let lines := data.splitOn '\n'
  let lines := if lines.getLast? = some [] then lines.dropLast else lines
  (lines.takeWhile fun line => (String.ofList line).utf8ByteSize < 65536).map fun line =>
    if line.getLast? = some '\r' then line.dropLast else line

/-- The class `\s` of a regular expression. -/
def isRegexpSpace (c : Char) : Bool := c ∈ ['\t', '\n', '\x0c', '\r', ' ']

/-- The body of the loop of `parser.Unmarshal`. -/
def parseLine (out : Dict String) (line : List Char) : Except String (Dict String) :=
  if "#".toList.isPrefixOf line then .ok out
  else
    let line := Layout.trimSpace line
    if line = [] then .ok out
    else
      let name := line.takeWhile fun c => !isRegexpSpace c
      let rest := line.dropWhile fun c => !isRegexpSpace c
      if rest = [] then .error ("invalid line: " ++ String.ofList line)
      else .ok (out.insert (String.ofList name) (String.ofList (rest.dropWhile isRegexpSpace)))

/-- `parser.Unmarshal`. -/
def unmarshal (data : String) : Except String (Dict String) :=
  (scanLines data.toList).foldlM parseLine ∅

/-- What a candidate file sets. -/
def fileSettings (sys : System) (candidate : String) : Except String (Dict String) :=
  if candidate = "" then .ok ∅
  else do
    let data ← sys.readFile candidate
    unmarshal (data.getD "")

def loadFile (sys : System) (k : Dict String) (candidate : String) : Except String (Dict String) := do
  let settings ← (fileSettings sys candidate).mapError fun err => candidate ++ ": " ++ err
  return k.copy settings

/-- `readSecretFromFile`. -/
def readSecretFromFile (sys : System) (path : String) : Except String String := do
  let mode ← sys.mode path
  if mode % 8 ≠ 0 then .error "permissions too wide"
  else match ← sys.readFile path with
    | none => .error "no such file or directory"
    | some data => return String.ofList (Layout.trimSpace data.toList)

/-- `k.String`. -/
def stringOf (k : Dict String) (key : String) : String := k[key]?.getD ""

/-- The candidates, in the order they are loaded. -/
def candidates (sys : System) (k : Dict String) : List String :=
  ["/etc/ldap/ldap.conf", sys.join sys.home "ldaprc", sys.join sys.home ".ldaprc", "ldaprc",
   stringOf k "CONF", sys.join sys.home (stringOf k "RC"),
   sys.join sys.home ("." ++ stringOf k "RC"), stringOf k "RC"]

/-! ## `Initialize` -/

/-- `ldap.Config`. -/
structure Config where
  knownRDNs : Option (List String) := none

/-- The variables of the package. -/
structure Globals where
  knownRDNs : List String := ["cn", "l", "st", "o", "ou", "c", "street", "dc", "uid"]
  k : Dict String := ∅

/-- `Config.apply`. -/
def Config.apply (conf : Config) (g : Globals) : Globals :=
  { g with knownRDNs := conf.knownRDNs.getD g.knownRDNs }

/-- Defaults, environment and command line. -/
def early (sys : System) (k : Dict String) : Dict String :=
  let k := k.copy defaults
  let k := k.copy (environment sys.env)
  k.copy (sys.commandLine.settings k)

/-- The password, read from the file that `PASSWORD_FILE` names. -/
def loadPassword (sys : System) (k : Dict String) : Except String (Dict String) :=
  if stringOf k "PASSWORD_FILE" = "" then .ok k
  else do
    let data ← (readSecretFromFile sys (stringOf k "PASSWORD_FILE")).mapError ("ldap password: " ++ ·)
    return k.insert "PASSWORD" data

/-- `Initialize`. -/
def ldapInitialize (sys : System) (conf : Config) (g : Globals) : Except String Globals := do
  let g := conf.apply g
  if "LDAPNOINIT" ∈ sys.env then return g
  else
    let k ← loadPassword sys (early sys g.k)
    let k ← (candidates sys k).foldlM (loadFile sys) k
    return { g with k }

/-! ## Which source wins -/

section Sources

theorem envKey_eq_some {name key : String} : envKey name = some key ↔ key ≠ "" ∧ name = "LDAP" ++ key := by
  constructor
  · intro h
    unfold envKey at h
    split at h
    case isTrue hstart =>
      obtain ⟨t, ht⟩ := List.isPrefixOf_iff_prefix.mp hstart
      have htrim : trimStart "LDAP".toList name.toList = t := by
        rw [trimStart, if_pos hstart, ← ht, List.drop_left]
      simp only [htrim] at h
      split at h
      case isTrue => cases h
      case isFalse hne =>
        cases h
        refine ⟨fun hempty => hne (by simpa using congrArg String.toList hempty), ?_⟩
        exact String.toList_injective (by simp [← ht])
    case isFalse => cases h
  · intro ⟨hne, hname⟩
    subst hname
    have hstart : "LDAP".toList.isPrefixOf ("LDAP" ++ key).toList = true :=
      List.isPrefixOf_iff_prefix.mpr ⟨key.toList, by rw [String.toList_append]⟩
    have htrim : trimStart "LDAP".toList ("LDAP" ++ key).toList = key.toList := by
      rw [trimStart, if_pos hstart, String.toList_append, List.drop_left]
    have hchars : key.toList ≠ [] := fun hnil => hne (String.toList_injective hnil)
    simp only [envKey, hstart, if_true, htrim, hchars, if_false, String.ofList_toList]

theorem get_fill_pairs {rows : List (String × String)} (h : (rows.map Prod.fst).Nodup) {key v : String} :
    (Dict.fill Prod.fst Prod.snd ∅ rows)[key]? = some v ↔ (key, v) ∈ rows := by
  constructor
  · intro hget
    rcases Dict.get_fill_cases hget with ⟨row, hrow, rfl, rfl⟩ | hempty
    · exact hrow
    · simp at hempty
  · intro hrow
    exact Dict.get_fill_of_mem h hrow

/-- The environment variable of an option. -/
def envValue (env : Dict String) (key : String) : Option String :=
  if key = "" then none else env["LDAP" ++ key]?

theorem environment_get (env : Dict String) (key : String) :
    (environment env)[key]? = envValue env key := by
  have hnodup : ((env.toList.filterMap fun nv => (envKey nv.1).map (·, nv.2)).map Prod.fst).Nodup := by
    have hkeys : (env.toList.filterMap fun nv => (envKey nv.1).map (·, nv.2)).map Prod.fst =
        env.keys.filterMap envKey := by
      rw [← Std.ExtTreeMap.map_fst_toList_eq_keys, List.map_filterMap, List.filterMap_map]
      simp [Function.comp_def]
    rw [hkeys]
    refine Std.ExtTreeMap.nodup_keys.filterMap fun a b key ha hb => ?_
    exact (envKey_eq_some.mp ha).2.trans (envKey_eq_some.mp hb).2.symm
  refine Option.ext fun v => ?_
  rw [environment, get_fill_pairs hnodup, envValue]
  simp only [List.mem_filterMap, Option.map_eq_some_iff, Prod.mk.injEq, envKey_eq_some]
  constructor
  · intro ⟨⟨name, value⟩, hin, key', ⟨hne, hname⟩, hkey, hvalue⟩
    subst hkey hvalue hname
    rw [if_neg hne]
    exact Std.ExtTreeMap.mem_toList_iff_getElem?_eq_some.mp hin
  · intro h
    split at h
    · cases h
    case isFalse hne =>
      exact ⟨("LDAP" ++ key, v), Std.ExtTreeMap.mem_toList_iff_getElem?_eq_some.mpr h, key, ⟨hne, rfl⟩,
        rfl, rfl⟩

/-- The value of an option on the command line, if it is set there. -/
def CommandLine.set (cl : CommandLine) (key : String) : Option String :=
  (cl.flags.find? fun f => f.key = some key ∧ f.changed = true).map Flag.value

/-- The default of an option of the command line. -/
def CommandLine.unset (cl : CommandLine) (key : String) : Option String :=
  (cl.flags.find? fun f => f.key = some key ∧ f.changed = false).map Flag.value

/-- A key has one flag. -/
theorem CommandLine.unique (cl : CommandLine) {f f' : Flag} {key : String} (hf : f ∈ cl.flags)
    (hf' : f' ∈ cl.flags) (h : f.key = some key) (h' : f'.key = some key) : f = f' := by
  let Same (a a' : Flag) : Prop := ∀ key, a.key = some key → a'.key = some key → a = a'
  have hsymm : Std.Symm Same := ⟨fun a a' h key ha' ha => (h key ha ha').symm⟩
  have hpairs : cl.flags.Pairwise Same := (List.pairwise_filterMap.mp cl.distinct).imp
    fun hne key h h' => absurd rfl (hne key h key h')
  exact hpairs.forall_of_forall (fun a _ key _ _ => rfl) hf hf' key h h'

theorem find_eq_some {cl : CommandLine} {key v : String} {b : Bool} :
    (cl.flags.find? fun f => f.key = some key ∧ f.changed = b).map Flag.value = some v ↔
      ∃ f ∈ cl.flags, f.key = some key ∧ f.changed = b ∧ f.value = v := by
  constructor
  · intro h
    obtain ⟨f, hf, hv⟩ := Option.map_eq_some_iff.mp h
    have hp : f.key = some key ∧ f.changed = b := by simpa using List.find?_some hf
    exact ⟨f, List.mem_of_find?_eq_some hf, hp.1, hp.2, hv⟩
  · intro ⟨f, hf, hkey, hchanged, hv⟩
    have hsome : (cl.flags.find? fun f => f.key = some key ∧ f.changed = b).isSome :=
      List.find?_isSome.mpr ⟨f, hf, decide_eq_true ⟨hkey, hchanged⟩⟩
    obtain ⟨g, hg⟩ := Option.isSome_iff_exists.mp hsome
    have hp : g.key = some key ∧ g.changed = b := by simpa using List.find?_some hg
    rw [hg, cl.unique (List.mem_of_find?_eq_some hg) hf hp.1 hkey, ← hv]
    rfl

theorem settings_get (cl : CommandLine) (k : Dict String) (key : String) :
    (cl.settings k)[key]? = (cl.set key).or (if key ∈ k then none else cl.unset key) := by
  have hnodup : (((cl.flags.filter fun f => f.changed || f.key.all (· ∉ k)).filterMap
      fun f => f.key.map (·, f.value)).map Prod.fst).Nodup := by
    rw [List.map_filterMap]
    simp only [Option.map_map, Function.comp_def, Option.map_id']
    exact cl.distinct.sublist (List.filter_sublist.filterMap _)
  refine Option.ext fun v => ?_
  rw [CommandLine.settings, get_fill_pairs hnodup]
  simp only [List.mem_filterMap, List.mem_filter, Option.map_eq_some_iff, Prod.mk.injEq]
  rw [Option.or_eq_some_iff, CommandLine.set, find_eq_some]
  constructor
  · intro ⟨f, ⟨hf, hkept⟩, key', hkey, heq, hv⟩
    subst heq hv
    cases hchanged : f.changed with
    | true => exact .inl ⟨f, hf, hkey, hchanged, rfl⟩
    | false =>
      have hnew : key' ∉ k := by simpa [hchanged, hkey] using hkept
      refine .inr ⟨?_, ?_⟩
      · refine Option.eq_none_iff_forall_ne_some.mpr fun v hv => ?_
        obtain ⟨f', hf', hkey', hchanged', _⟩ := find_eq_some.mp hv
        rw [cl.unique hf' hf hkey' hkey, hchanged] at hchanged'
        cases hchanged'
      · rw [if_neg hnew]
        exact find_eq_some.mpr ⟨f, hf, hkey, hchanged, rfl⟩
  · intro h
    rcases h with ⟨f, hf, hkey, hchanged, rfl⟩ | ⟨_, h⟩
    · exact ⟨f, ⟨hf, by simp [hchanged]⟩, key, hkey, rfl, rfl⟩
    · split at h
      · cases h
      case isFalse hnew =>
        obtain ⟨f, hf, hkey, _, rfl⟩ := find_eq_some.mp h
        exact ⟨f, ⟨hf, by simp [hkey, hnew]⟩, key, hkey, rfl, rfl⟩

end Sources

/-- The value an option is given, on the command line or in the environment. -/
def given (sys : System) (key : String) : Option String :=
  (sys.commandLine.set key).or (envValue sys.env key)

def defaultOf (sys : System) (key : String) : Option String :=
  defaults[key]?.or (sys.commandLine.unset key)

/-- The value of an option in the last candidate file that sets it. -/
def lastFile (sys : System) (key : String) : Option String :=
  (candidates sys (early sys ∅)).reverse.findSome? fun c =>
    (fileSettings sys c).toOption.bind fun settings => settings[key]?

/-- The password that was read from a file. -/
def secret (sys : System) (key : String) : Option String :=
  if key = "PASSWORD" ∧ stringOf (early sys ∅) "PASSWORD_FILE" ≠ "" then
    (readSecretFromFile sys (stringOf (early sys ∅) "PASSWORD_FILE")).toOption
  else none

/-- What the documentation says: the command line, the environment, the last of the files
and the default, in this order. -/
def documented (sys : System) (key : String) : Option String :=
  (given sys key).or ((lastFile sys key).or (defaultOf sys key))

section Order
variable {sys : System} {key : String}

theorem early_get (sys : System) (key : String) :
    (early sys ∅)[key]? = (given sys key).or (defaultOf sys key) := by
  unfold early
  simp only [Dict.get_copy, settings_get, environment_get, given, defaultOf, Dict.get_empty,
    Option.or_none, Option.or_assoc]
  split
  case isTrue hmem =>
    obtain ⟨v, hv⟩ := Dict.mem_iff.mp hmem
    rw [Dict.get_copy, environment_get, Dict.get_copy, Dict.get_empty, Option.or_none] at hv
    have hgiven : (envValue sys.env key).or (defaults[key]?.or (sys.commandLine.unset key)) =
        (envValue sys.env key).or defaults[key]? := by
      rw [← Option.or_assoc, hv, Option.some_or]
    rw [Option.none_or, hgiven]
  case isFalse hmem =>
    have hnone := Dict.not_mem_iff.mp hmem
    rw [Dict.get_copy, environment_get, Dict.get_copy, Dict.get_empty, Option.or_none,
      Option.or_eq_none_iff] at hnone
    rw [hnone.1, hnone.2]
    simp

theorem candidates_congr {k k' : Dict String} (hconf : k["CONF"]? = k'["CONF"]?)
    (hrc : k["RC"]? = k'["RC"]?) : candidates sys k = candidates sys k' := by
  unfold candidates stringOf
  rw [hconf, hrc]

theorem loadPassword_get {k : Dict String} (h : loadPassword sys (early sys ∅) = .ok k) (key : String) :
    k[key]? = (secret sys key).or (early sys ∅)[key]? := by
  unfold loadPassword at h
  unfold secret
  split at h
  case isTrue hempty =>
    cases h
    rw [if_neg fun hand => hand.2 hempty, Option.none_or]
  case isFalse hfile =>
    obtain ⟨data, hdata, h⟩ := bind_eq_ok.mp h
    cases h
    have hread : readSecretFromFile sys (stringOf (early sys ∅) "PASSWORD_FILE") = .ok data :=
      mapError_eq_ok.mp hdata
    rw [Dict.get_insert, hread]
    by_cases hkey : key = "PASSWORD"
    · rw [if_pos hkey.symm, if_pos ⟨hkey, hfile⟩]
      rfl
    · rw [if_neg (Ne.symm hkey), if_neg fun hand => hkey hand.1, Option.none_or]

/-- The files, one after the other, override what was loaded before. -/
theorem loadFiles_get {l : List String} {k k' : Dict String} (h : l.foldlM (loadFile sys) k = .ok k')
    (key : String) : k'[key]? = (l.reverse.findSome? fun c =>
      (fileSettings sys c).toOption.bind fun settings => settings[key]?).or k[key]? := by
  induction l generalizing k with
  | nil =>
    cases h
    rfl
  | cons c l ih =>
    obtain ⟨k₁, hk₁, h⟩ := bind_eq_ok.mp h
    obtain ⟨settings, hsettings, hk₁⟩ := bind_eq_ok.mp hk₁
    cases hk₁
    have hfile : fileSettings sys c = .ok settings := mapError_eq_ok.mp hsettings
    rw [ih h, Dict.get_copy, List.reverse_cons, List.findSome?_append, Option.or_assoc]
    simp [hfile, Except.toOption]

/-- What an option is, after `Initialize`. -/
theorem option_get {conf : Config} {g : Globals} (h : ldapInitialize sys conf {} = .ok g) (key : String) :
    g.k[key]? = if "LDAPNOINIT" ∈ sys.env then none
      else (lastFile sys key).or ((secret sys key).or ((given sys key).or (defaultOf sys key))) := by
  unfold ldapInitialize at h
  simp only at h
  split at h
  case isTrue hnoinit =>
    cases h
    rw [if_pos hnoinit]
    rfl
  case isFalse hnoinit =>
    obtain ⟨k, hk, h⟩ := bind_eq_ok.mp h
    obtain ⟨k', hk', h⟩ := bind_eq_ok.mp h
    cases h
    have hget : ∀ key : String, k[key]? = (secret sys key).or (early sys ∅)[key]? := loadPassword_get hk
    have hcandidates : candidates sys k = candidates sys (early sys ∅) :=
      candidates_congr (hget "CONF") (hget "RC")
    rw [if_neg hnoinit, loadFiles_get hk', hget, hcandidates, early_get]
    rfl

end Order

/-- **An option has its documented value** exactly when no file contradicts the command line
or the environment, and the password of a file is the one that is documented. -/
theorem option_documented_iff {sys : System} {conf : Config} {g : Globals}
    (h : ldapInitialize sys conf {} = .ok g) (key : String) :
    g.k[key]? = documented sys key ↔
      if "LDAPNOINIT" ∈ sys.env then documented sys key = none
      else match lastFile sys key with
        | some w => ∀ v, given sys key = some v → v = w
        | none => ∀ password, secret sys key = some password → documented sys key = some password := by
  rw [option_get h]
  split
  · exact eq_comm
  · cases hfile : lastFile sys key with
    | some w =>
      rw [Option.some_or, documented, hfile, Option.some_or]
      cases given sys key <;> simp [eq_comm]
    | none =>
      rw [Option.none_or, documented, hfile, Option.none_or]
      cases secret sys key <;> simp [eq_comm]

namespace Sample

/-- A server in the environment, and another one in the `ldaprc` of the directory. -/
def system : System where
  env := (∅ : Dict String).insert "LDAPURI" "ldaps://directory"
  commandLine := ⟨[{ name := "real", value := "false" }, { name := "ldappassword-file", value := "" }],
    by decide +kernel⟩
  home := "/home/alice"
  join := fun a b => a ++ "/" ++ b
  mode := fun _ => .ok 384
  readFile := fun path => .ok (if path = "ldaprc" then some "# local\nURI ldap://laptop\n" else none)

end Sample

open Sample

/-- The file wins over the environment. -/
theorem file_wins :
    (ldapInitialize system {} {}).toOption.map (fun g => g.k["URI"]?) = some (some "ldap://laptop") ∧
      documented system "URI" = some "ldaps://directory" := by
  decide +kernel

theorem timeout_documented : ∃ g, ldapInitialize system {} {} = .ok g ∧
    g.k["TIMEOUT"]? = documented system "TIMEOUT" := by
  have hok : (ldapInitialize system {} {}).toOption.isSome = true := by decide +kernel
  cases h : ldapInitialize system {} {} with
  | error err =>
    rw [h] at hok
    cases hok
  | ok g =>
    have hnoinit : "LDAPNOINIT" ∉ system.env := by decide +kernel
    have hfile : lastFile system "TIMEOUT" = none := by decide +kernel
    have hsecret : secret system "TIMEOUT" = none := by decide +kernel
    refine ⟨g, rfl, (option_documented_iff h "TIMEOUT").mpr ?_⟩
    rw [if_neg hnoinit, hfile, hsecret]
    exact nofun

end Ldap2pg.Ldap.Initialize
