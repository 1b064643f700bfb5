import Ldap2pg.Postgres

/-! # `internal/role`: roles, options and memberships

Options are one record with a column of `pg_roles` for each field. The code
walks the fields by reflection, in declaration order, and skips the columns the
server does not have or does not show: `Columns` is that availability map. -/
namespace Ldap2pg.Roles
open Lib

/-- The columns of `Options`, under their names in `pg_roles`. -/
inductive Column where
  | rolsuper | rolcreatedb | rolcreaterole | rolinherit
  | rolcanlogin | rolreplication | rolbypassrls | rolconnlimit
  deriving DecidableEq, Repr

/-- `reflect.VisibleFields`: declaration order. -/
def Column.all : List Column :=
  [.rolsuper, .rolcreatedb, .rolcreaterole, .rolinherit,
    .rolcanlogin, .rolreplication, .rolbypassrls, .rolconnlimit]

theorem Column.mem_all (c : Column) : c ∈ Column.all := by cases c <;> decide

/-- The `mapstructure` tag, which is the SQL keyword. -/
def Column.keyword : Column → String
  | .rolsuper => "SUPERUSER"
  | .rolcreatedb => "CREATEDB"
  | .rolcreaterole => "CREATEROLE"
  | .rolinherit => "INHERIT"
  | .rolcanlogin => "LOGIN"
  | .rolreplication => "REPLICATION"
  | .rolbypassrls => "BYPASSRLS"
  | .rolconnlimit => "CONNECTION LIMIT"

structure Options where
  super : Bool := false
  createDB : Bool := false
  createRole : Bool := false
  inherit : Bool := false
  canLogin : Bool := false
  replication : Bool := false
  byPassRLS : Bool := false
  connLimit : Int := 0
  deriving DecidableEq, Repr, Inhabited

inductive OptionValue where
  | bool (b : Bool)
  | int (n : Int)
  deriving DecidableEq, Repr

def Options.get (o : Options) : Column → OptionValue
  | .rolsuper => .bool o.super
  | .rolcreatedb => .bool o.createDB
  | .rolcreaterole => .bool o.createRole
  | .rolinherit => .bool o.inherit
  | .rolcanlogin => .bool o.canLogin
  | .rolreplication => .bool o.replication
  | .rolbypassrls => .bool o.byPassRLS
  | .rolconnlimit => .int o.connLimit

/-- Whether each column is available on the inspected instance. -/
abbrev Columns := Column → Bool

/-- One clause of an options text: a column and its wanted value. -/
abbrev Clause := Column × OptionValue

/-- The text of a clause: `LOGIN`, `NOLOGIN`, `CONNECTION LIMIT 3`. -/
def Clause.text : Clause → String
  | (c, .bool b) => (if b then "" else "NO") ++ c.keyword
  | (c, .int n) => c.keyword ++ " " ++ toString n

def clausesText (l : List Clause) : String := " ".intercalate (l.map Clause.text)

theorem Clause.text_ne_empty (x : Clause) : x.text ≠ "" := by
  obtain ⟨c, v⟩ := x
  cases c <;> cases v <;> simp [Clause.text, Column.keyword]

theorem clausesText_eq_empty {l : List Clause} : clausesText l = "" ↔ l = [] := by
  cases l with
  | nil => simp [clausesText]
  | cons x l =>
    cases l with
    | nil => simp [clausesText, x.text_ne_empty]
    | cons y l => simp [clausesText, String.intercalate_cons_cons, x.text_ne_empty]

/-- `Options.String`: every enabled option. -/
def Options.clauses (cols : Columns) (o : Options) : List Clause :=
  (Column.all.filter cols).map fun c => (c, o.get c)

/-- `Options.Diff`: the enabled options that differ, with the wanted value. -/
def Options.diff (cols : Columns) (o wanted : Options) : List Clause :=
  (Column.all.filter fun c => cols c && o.get c != wanted.get c).map fun c => (c, wanted.get c)

theorem mem_diff {cols : Columns} {o wanted : Options} {x : Clause} :
    x ∈ o.diff cols wanted ↔
      cols x.1 = true ∧ o.get x.1 ≠ wanted.get x.1 ∧ x.2 = wanted.get x.1 := by
  simp only [Options.diff, List.mem_map, List.mem_filter, Bool.and_eq_true, bne_iff_ne]
  constructor
  · rintro ⟨c, ⟨_, hc, hd⟩, rfl⟩; exact ⟨hc, hd, rfl⟩
  · rintro ⟨hc, hd, hx⟩; exact ⟨x.1, ⟨x.1.mem_all, hc, hd⟩, by rw [← hx]⟩

/-- Two options agree on the enabled columns exactly when their diff is empty. -/
theorem diff_eq_nil {cols : Columns} {o wanted : Options} :
    o.diff cols wanted = [] ↔ ∀ c, cols c = true → o.get c = wanted.get c := by
  constructor
  · intro h c hc
    by_contra hne
    have hm : (c, wanted.get c) ∈ o.diff cols wanted := mem_diff.mpr ⟨hc, hne, rfl⟩
    rw [h] at hm; cases hm
  · intro h
    apply List.eq_nil_iff_forall_not_mem.mpr
    intro x hx
    obtain ⟨hc, hne, _⟩ := mem_diff.mp hx
    exact hne (h x.1 hc)

structure Membership where
  grantor : String := ""
  name : String
  deriving DecidableEq, Repr, Inhabited

/-- `role.Config`: a map of settings. -/
abbrev Config := Dict String

structure Role where
  name : String := ""
  comment : String := ""
  parents : List Membership := []
  options : Options := {}
  config : Option Config := none
  beforeCreate : String := ""
  afterCreate : String := ""
  deriving Inhabited

/-- `role.Map`. -/
abbrev RoleMap := Dict Role

/-- `Role.MemberOf` on a list of memberships. -/
def memberOf (parents : List Membership) (p : String) : Bool :=
  parents.any fun m => m.name = p

@[simp] theorem memberOf_iff {parents : List Membership} {p : String} :
    memberOf parents p = true ↔ p ∈ parents.map Membership.name := by
  simp [memberOf]

/-- `Role.MissingParents`: the memberships of `o` the role does not have. -/
def Role.missingParents (r : Role) (o : List Membership) : List Membership :=
  o.filter fun m => !memberOf r.parents m.name

theorem mem_missingParents {r : Role} {o : List Membership} {m : Membership} :
    m ∈ r.missingParents o ↔ m ∈ o ∧ m.name ∉ r.parents.map Membership.name := by
  rw [Role.missingParents, List.mem_filter, Bool.not_eq_true', ← Bool.not_eq_true, memberOf_iff]

/-- The keys of the map are the names of its roles. -/
def KeyIsName (m : RoleMap) : Prop :=
  ∀ (k : String) (r : Role), m[k]? = some r → r.name = k

/-- Roles filed under their names, as inspection does: the last one wins. -/
def RoleMap.ofRoles (roles : List Role) : RoleMap := Dict.fill Role.name id ∅ roles

theorem RoleMap.keyIsName_ofRoles (roles : List Role) : KeyIsName (RoleMap.ofRoles roles) := by
  intro k r h
  rcases Dict.get_fill_cases h with ⟨r', _, hk, rfl⟩ | h
  · exact hk
  · simp at h

end Ldap2pg.Roles
