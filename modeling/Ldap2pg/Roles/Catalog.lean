import Ldap2pg.Roles.Diff

/-! # The role catalogue of the instance

What the server stores of each role, and what each statement of the role stage
does to it. Statements fail as the server fails them: a role created twice, a
role or a parent that does not exist, a membership that closes a cycle. `Reads`
relates the catalogue to the roles an inspection returns. -/
namespace Ldap2pg.Roles
open Lib Lib.Digraph Postgres Relation

/-- A role in the catalogue. -/
structure Stored where
  options : Options
  memberships : Finset Membership
  comment : String
  config : Config

abbrev Catalog := Dict Stored

namespace Catalog

def parentNames (cat : Catalog) (name : String) : Set String :=
  { p | ∃ c, cat[name]? = some c ∧ ∃ m ∈ c.memberships, m.name = p }

/-- `name` is a member of `other`, possibly through other roles, or is `other`. -/
def Reaches (cat : Catalog) : String → String → Prop :=
  ReflTransGen fun name p => p ∈ cat.parentNames name

end Catalog

/-- The effect of one clause of an options list. -/
def Options.set (o : Options) : Clause → Options
  | (.rolsuper, .bool b) => { o with super := b }
  | (.rolcreatedb, .bool b) => { o with createDB := b }
  | (.rolcreaterole, .bool b) => { o with createRole := b }
  | (.rolinherit, .bool b) => { o with inherit := b }
  | (.rolcanlogin, .bool b) => { o with canLogin := b }
  | (.rolreplication, .bool b) => { o with replication := b }
  | (.rolbypassrls, .bool b) => { o with byPassRLS := b }
  | (.rolconnlimit, .int n) => { o with connLimit := n }
  | _ => o

theorem Options.get_set (o wanted : Options) (c c' : Column) :
    (o.set (c, wanted.get c)).get c' = if c = c' then wanted.get c' else o.get c' := by
  cases c <;> cases c' <;> rfl

/-- Clauses that all carry the wanted values set these columns and no other. -/
theorem Options.get_foldl_set (wanted : Options) (c : Column) (columns : List Column) :
    ∀ o : Options, ((columns.map fun c => (c, wanted.get c)).foldl Options.set o).get c =
      if c ∈ columns then wanted.get c else o.get c := by
  induction columns with
  | nil => intro o; simp
  | cons c' columns ih =>
    intro o
    rw [List.map_cons, List.foldl_cons, ih, Options.get_set]
    by_cases hin : c ∈ columns
    · simp [hin]
    · by_cases he : c' = c
      · simp [he]
      · simp [hin, he, Ne.symm he]

namespace Catalog

/-- The options of a role created without any. -/
def defaultOptions : Options := { inherit := true, connLimit := -1 }

/-- Changes the role `name`, which must exist. -/
def alterRole (cat : Catalog) (name : String) (f : Stored → Stored) : Option Catalog :=
  cat[name]?.map fun c => cat.insert name (f c)

section Exec
-- The grantor the server records for a membership.
variable (grantor : String → String → String)

def membership (name p : String) : Membership := { grantor := grantor p name, name := p }

open Classical in
/-- `GRANT p TO name`. -/
noncomputable def grantParent (name : String) (cat : Catalog) (p : String) : Option Catalog :=
  if p ∈ cat ∧ ¬ cat.Reaches p name then
    cat.alterRole name fun c =>
      { c with memberships := insert (membership grantor name p) c.memberships }
  else none

/-- `DROP ROLE name`: its memberships go, and the memberships in it. -/
def dropRole (cat : Catalog) (name : String) : Catalog :=
  (cat.erase name).map fun _ c =>
    { c with memberships := c.memberships.filter fun m => m.name ≠ name }

/-- One statement on the catalogue, `none` when it fails. -/
noncomputable def exec (cat : Catalog) : Stmt → Option Catalog
  | .hook _ => none -- arbitrary SQL
  | .create name options parents =>
    if name ∉ cat ∧ ∀ p ∈ parents, p ∈ cat then
      some (cat.insert name
        { options := options.foldl Options.set defaultOptions
          memberships := (parents.map (membership grantor name)).toFinset
          comment := ""
          config := ∅ })
    else none
  | .alterOptions name changes =>
    cat.alterRole name fun c => { c with options := changes.foldl Options.set c.options }
  | .grantParents parents name => parents.foldlM (grantParent grantor name) cat
  | .revokeParent parent name granted =>
    cat.alterRole name fun c =>
      { c with memberships := c.memberships.erase { grantor := granted, name := parent } }
  | .comment name text => cat.alterRole name fun c => { c with comment := text }
  | .resetConfig name key => cat.alterRole name fun c => { c with config := c.config.erase key }
  | .setConfig name key value | .initConfig name key value =>
    cat.alterRole name fun c => { c with config := c.config.insert key value }
  | .noLogin name =>
    cat.alterRole name fun c => { c with options := { c.options with canLogin := false } }
  | .drop name => if name ∈ cat then some (cat.dropRole name) else none
  | .terminate _ | .alterDatabase _ _ | .reassignOwned _ _ => some cat

noncomputable def execAll (cat : Catalog) (stmts : List Stmt) : Option Catalog :=
  stmts.foldlM (exec grantor) cat

end Exec

/-! ## Statements on one role

The statements that alter a role only touch its own entry, so a sequence of them
is followed on `cat.insert name c`, with `cat` fixed. -/

section OneRole
variable {grantor : String → String → String} {cat : Catalog} {name : String} {c : Stored}

theorem execAll_append (cat : Catalog) (l₁ l₂ : List Stmt) :
    execAll grantor cat (l₁ ++ l₂) =
      (execAll grantor cat l₁).bind fun cat' => execAll grantor cat' l₂ := List.foldlM_append

theorem execAll_cons (cat : Catalog) (s : Stmt) (l : List Stmt) :
    execAll grantor cat (s :: l) =
      (exec grantor cat s).bind fun cat' => execAll grantor cat' l := List.foldlM_cons

theorem execAll_nil (cat : Catalog) : execAll grantor cat [] = some cat := rfl

theorem insert_insert (cat : Catalog) (name : String) (c c' : Stored) :
    (cat.insert name c).insert name c' = cat.insert name c' := by
  apply Dict.ext_get
  intro k
  by_cases he : name = k <;> simp [he]

theorem insert_get (h : cat[name]? = some c) : cat.insert name c = cat := by
  apply Dict.ext_get
  intro k
  by_cases he : name = k
  · subst he; simp [h]
  · simp [he]

theorem alterRole_insert (f : Stored → Stored) :
    Catalog.alterRole (cat.insert name c) name f = some (cat.insert name (f c)) := by
  simp [alterRole, insert_insert]

end OneRole

end Catalog

/-- What an inspection reads of a role, on the columns it can see. -/
structure ReadsRole (cols : Columns) (c : Stored) (r : Role) : Prop where
  options : ∀ col, cols col = true → r.options.get col = c.options.get col
  parents : ∀ m, m ∈ r.parents ↔ m ∈ c.memberships
  comment : r.comment = c.comment
  config : r.config = some c.config

/-- `all` is an inspection of the catalogue. -/
structure Reads (cols : Columns) (cat : Catalog) (all : RoleMap) : Prop where
  key : KeyIsName all
  mem : ∀ name, name ∈ all ↔ name ∈ cat
  role : ∀ (name : String) (r : Role) (c : Stored),
    all[name]? = some r → cat[name]? = some c → ReadsRole cols c r

/-- The stored role is as wanted. -/
structure Synced (cols : Columns) (w : Role) (c : Stored) : Prop where
  options : ∀ col, cols col = true → c.options.get col = w.options.get col
  parents : ∀ p, (∃ m ∈ c.memberships, m.name = p) ↔ p ∈ w.parents.map Membership.name
  comment : c.comment = w.comment
  config : ∀ config, w.config = some config → c.config = config

end Ldap2pg.Roles
