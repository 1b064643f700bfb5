import Ldap2pg.Lib.Layout
import Ldap2pg.Lib.Sprintf
import Ldap2pg.Roles.Diff

/-! # The SQL sent for a query, and for hooks

`Apply` sends each query through `FmtQueryRewriter`: the text loses its indentation,
the arguments are quoted, and the text is the format of `fmt.Sprintf`. A hook is a
query without arguments. -/
namespace Ldap2pg.Roles.Hooks
open Lib Lib.Layout Postgres

/-- What rewriting takes from pgx, `dedent.Dedent`, and `fmt.Sprintf` for texts. -/
structure Conn where
  /-- `Identifier.Sanitize` -/
  sanitize : String → String
  /-- `EscapeString`, which refuses some connections -/
  escapeString : String → Option String
  sprintf : List Char → List (List Char) → List Char
  /-- without operands -/
  sprintf_nil : ∀ s, sprintf s [] = Sprintf.sprintf s
  dedent : List Char → List Char
  dedents : Dedents dedent

mutual

def formatArg (conn : Conn) : Arg → Option String
  | .ident name => some (conn.sanitize name)
  | .str s => (conn.escapeString s).map fun s => "'" ++ s ++ "'"
  | .list l => joinArgs conn "" l

/-- The loop over a list of arguments; `b` is what was written. -/
def joinArgs (conn : Conn) (b : String) : List Arg → Option String
  | [] => some b
  | item :: l => do
    let item ← formatArg conn item
    joinArgs conn (if b ≠ "" then b ++ ", " ++ item else b ++ item) l

end

/-- The text without common indentation and surrounding blanks. -/
def layout (conn : Conn) (sql : String) : String :=
  .ofList (trimSpace (conn.dedent sql.toList))

/-- `RewriteQuery`; `none` is an error. -/
def rewriteQuery (conn : Conn) (sql : String) (args : List Arg) : Option String := do
  let fmtArgs ← args.mapM (formatArg conn)
  return .ofList (conn.sprintf (layout conn sql).toList (fmtArgs.map String.toList))

/-- The text and the arguments of a query. -/
structure Statement where
  query : String
  queryArgs : List Arg := []

/-- What the source puts in the query. -/
def statement (q : Query) : SyncQuery Statement :=
  { description := q.description, database := q.database, stmt := ⟨q.stmt.query, q.stmt.args⟩ }

/-- The text that `Apply` logs and executes. The error of `RewriteQuery` is dropped, and the
text it returns with an error is empty. -/
def rewritten (conn : Conn) (q : SyncQuery Statement) : String :=
  (rewriteQuery conn q.stmt.query q.stmt.queryArgs).getD ""

/-- The hooks of a role that are not empty. -/
def hooks (r : Role) : List String := [r.beforeCreate, r.afterCreate].filter (· ≠ "")

/-- Creating a role sends a query for each of its hooks. -/
theorem exists_hook (cols : Columns) (o : Order) {r : Role} {text : String} (h : text ∈ hooks r) :
    ∃ q ∈ r.create cols o, q.stmt = .hook text := by
  obtain ⟨hmem, hne⟩ := List.mem_filter.mp h
  have hne : text ≠ "" := by simpa using hne
  simp only [List.mem_cons, List.not_mem_nil, or_false] at hmem
  unfold Role.create
  rcases hmem with rfl | rfl
  · refine ⟨{ description := "Run before create hook.", stmt := .hook r.beforeCreate }, ?_, rfl⟩
    simp [hne]
  · refine ⟨{ description := "Run after create hook.", stmt := .hook r.afterCreate }, ?_, rfl⟩
    simp [hne]

theorem rewritten_hook (conn : Conn) {q : Query} {text : String} (h : q.stmt = .hook text) :
    rewritten conn (statement q) = .ofList (Sprintf.sprintf (layout conn text).toList) := by
  have hbare : rewriteQuery conn text [] =
      some (.ofList (conn.sprintf (layout conn text).toList [])) := rfl
  have hquery : (statement q).stmt.query = text := congrArg Stmt.query h
  have hargs : (statement q).stmt.queryArgs = [] := congrArg Stmt.args h
  rw [rewritten, hquery, hargs, hbare, Option.getD_some, conn.sprintf_nil]

/-- Layout keeps the percent signs. -/
theorem percent_layout (conn : Conn) (text : String) :
    '%' ∈ (layout conn text).toList ↔ '%' ∈ text.toList := by
  rw [layout, String.toList_ofList, mem_of_blind (fun h => h.trimSpace) (by decide),
    mem_of_blind conn.dedents.blind (by decide)]

/-- A line without white space around it is sent as it is. -/
theorem layout_flush (conn : Conn) {sql : String} (hline : '\n' ∉ sql.toList)
    (htrim : trimSpace sql.toList = sql.toList) : layout conn sql = sql := by
  rw [layout, conn.dedents.flush _ (head_of_trimSpace htrim) hline, htrim, String.ofList_toList]

/-- **A hook is sent verbatim exactly when it has no percent sign**, up to common
indentation and surrounding blanks. -/
theorem hook_verbatim_iff (conn : Conn) (cols : Columns) (o : Order) (r : Role) (text : String)
    (h : text ∈ hooks r) :
    (∃ q ∈ r.create cols o, q.stmt = .hook text) ∧
      ((∀ q ∈ r.create cols o, q.stmt = .hook text →
          rewritten conn (statement q) = layout conn text) ↔
        '%' ∉ text.toList) := by
  obtain ⟨q, hq, hstmt⟩ := exists_hook cols o h
  refine ⟨⟨q, hq, hstmt⟩, ?_⟩
  rw [← percent_layout conn, ← Sprintf.sprintf_eq_iff]
  constructor
  · intro hall
    have hsent := congrArg String.toList ((rewritten_hook conn hstmt).symm.trans (hall q hq hstmt))
    rwa [String.toList_ofList] at hsent
  · intro hfix q' _ hstmt'
    rw [rewritten_hook conn hstmt', hfix, String.ofList_toList]

namespace Sample

def conn : Conn where
  sanitize := id
  escapeString := some
  sprintf := fun s _ => Sprintf.sprintf s
  sprintf_nil := fun _ => rfl
  dedent := dedent
  dedents := Layout.dedents

def hooked (sql : String) : Role := { name := "alice", beforeCreate := sql }

def allColumns : Columns := fun _ => true

end Sample

open Sample

theorem lock_verbatim : "  LOCK t;" ∈ hooks (hooked "  LOCK t;") ∧
    ∀ q ∈ (hooked "  LOCK t;").create allColumns Order.sorted, q.stmt = .hook "  LOCK t;" →
      rewritten conn (statement q) = layout conn "  LOCK t;" := by
  have hhook : "  LOCK t;" ∈ hooks (hooked "  LOCK t;") := by decide +kernel
  have hplain : '%' ∉ "  LOCK t;".toList := by decide +kernel
  exact ⟨hhook, (hook_verbatim_iff conn allColumns Order.sorted (hooked "  LOCK t;") "  LOCK t;"
    hhook).2.mpr hplain⟩

/-- The percent sign of a pattern becomes a report on a missing operand. -/
theorem pattern_rewritten :
    "LIKE 'a%'" ∈ hooks (hooked "LIKE 'a%'") ∧ layout conn "LIKE 'a%'" = "LIKE 'a%'" ∧
      ∃ q ∈ (hooked "LIKE 'a%'").create allColumns Order.sorted, q.stmt = .hook "LIKE 'a%'" ∧
        rewritten conn (statement q) = "LIKE 'a%!'(MISSING)" := by
  have hhook : "LIKE 'a%'" ∈ hooks (hooked "LIKE 'a%'") := by decide +kernel
  obtain ⟨q, hq, hstmt⟩ := exists_hook allColumns Order.sorted hhook
  refine ⟨hhook, by decide +kernel, q, hq, hstmt, ?_⟩
  rw [rewritten_hook conn hstmt]
  decide +kernel

end Ldap2pg.Roles.Hooks
