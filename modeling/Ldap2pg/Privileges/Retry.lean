import Ldap2pg.Privileges.Converge

/-! # An interrupted `Sync`

A run may stop anywhere: statements fail and are skipped, too many errors end
`Apply`, the connection breaks. What reached the server is then some of the
statements of `diff`. Whichever they are and in whatever order they ran, no wanted
grant was lost on the way, none that is not wanted came up, and the next run sends
exactly the statements that are left. -/
namespace Ldap2pg.Privileges.Retry
open Lib Postgres Privileges.Converge

/-- The grant that a statement is about, whole. -/
def target (k : Kind) : Stmt → Row
  | .revoke g | .grant g => (k.rowOf g).full

/-! ## Statements in any order -/

/-- The statements neither undo one another nor touch a mark. -/
structure Independent {k : Kind} (s : Store k) (stmts : List Stmt) : Prop where
  revoked : ∀ g, .revoke g ∈ stmts → g.type ≠ ""
  granted : ∀ e, .grant e ∈ stmts → e.type ≠ "" ∧ s.onMark e = false
  apart : ∀ g e, .revoke g ∈ stmts → .grant e ∈ stmts → (k.rowOf g).full ≠ (k.rowOf e).full

section Order
variable {k : Kind} {s : Store k}

theorem mark_mem_revoke {g : Grant} (htype : g.type ≠ "") (schema : String) :
    .mark schema ∈ (s.revoke g).rows ↔ .mark schema ∈ s.rows := by
  refine Store.mem_without.trans ⟨And.left, fun h => ⟨h, fun he => htype ?_⟩⟩
  have ht := congrArg Row.type he
  rw [Row.mark_full, Row.mark_type, Row.full_type, Kind.rowOf_type] at ht
  exact ht.symm

theorem mark_mem_exec {stmt : Stmt} {stmts : List Stmt} (h : Independent s (stmt :: stmts))
    (schema : String) : .mark schema ∈ (s.exec stmt).rows ↔ .mark schema ∈ s.rows := by
  cases stmt with
  | revoke g => exact mark_mem_revoke (h.revoked g List.mem_cons_self) schema
  | grant e => exact mark_mem_grant (h.granted e List.mem_cons_self).1 schema

theorem Independent.tail {stmt : Stmt} {stmts : List Stmt} (h : Independent s (stmt :: stmts)) :
    Independent (s.exec stmt) stmts where
  revoked g hg := h.revoked g (List.mem_cons_of_mem _ hg)
  granted e he := by
    obtain ⟨htype, hmark⟩ := h.granted e (List.mem_cons_of_mem _ he)
    exact ⟨htype, (onMark_congr (mark_mem_exec h) e).trans hmark⟩
  apart g e hg he := h.apart g e (List.mem_cons_of_mem _ hg) (List.mem_cons_of_mem _ he)

/-- The rows after independent statements do not depend on their order. -/
theorem mem_execs (stmts : List Stmt) : ∀ {s : Store k}, Independent s stmts → ∀ {r : Row},
    r ∈ (stmts.foldl Store.exec s).rows ↔
      (r ∈ s.rows ∧ ∀ stmt ∈ stmts, r.full ≠ target k stmt) ∨
        ∃ e, .grant e ∈ stmts ∧ r = (k.rowOf e).full := by
  induction stmts with
  | nil => intro s _ r; simp
  | cons stmt stmts ih =>
    intro s h r
    rw [List.foldl_cons, ih h.tail]
    cases stmt with
    | revoke g =>
      have hrevoke : r ∈ (s.exec (.revoke g)).rows ↔ r ∈ s.rows ∧ r.full ≠ (k.rowOf g).full :=
        Store.mem_without
      simp [hrevoke, target, and_assoc]
    | grant e =>
      obtain ⟨htype, hmark⟩ := h.granted e List.mem_cons_self
      have hgrant : r ∈ (s.exec (.grant e)).rows ↔
          (r ∈ s.rows ∧ r.full ≠ (k.rowOf e).full) ∨ r = (k.rowOf e).full := mem_grant htype hmark
      have hgrants : (∃ e', .grant e' ∈ Stmt.grant e :: stmts ∧ r = (k.rowOf e').full) ↔
          r = (k.rowOf e).full ∨ ∃ e', .grant e' ∈ stmts ∧ r = (k.rowOf e').full := by
        simp [or_and_right, exists_or]
      rw [hgrant, List.forall_mem_cons, hgrants, target]
      constructor
      · rintro (⟨⟨hr, hne⟩ | rfl, hrest⟩ | hlater)
        · exact .inl ⟨hr, hne, hrest⟩
        · exact .inr (.inl rfl)
        · exact .inr (.inr hlater)
      · rintro (⟨hr, hne, hrest⟩ | rfl | hlater)
        · exact .inl ⟨.inl ⟨hr, hne⟩, hrest⟩
        · -- nothing later revokes it, and what grants it again writes the same row
          by_cases hagain : ∃ e', .grant e' ∈ stmts ∧ (k.rowOf e).full = (k.rowOf e').full
          · exact .inr hagain
          · refine .inl ⟨.inr rfl, fun stmt hstmt => ?_⟩
            rw [Row.full_full]
            cases stmt with
            | revoke g =>
              exact fun he => h.apart g e (List.mem_cons_of_mem _ hstmt) List.mem_cons_self he.symm
            | grant e' => exact fun he => hagain ⟨e', hstmt, he⟩
        · exact .inr hlater

theorem mark_mem_execs (stmts : List Stmt) : ∀ {s : Store k}, Independent s stmts →
    ∀ schema, .mark schema ∈ (stmts.foldl Store.exec s).rows ↔ .mark schema ∈ s.rows := by
  induction stmts with
  | nil => intro s _ schema; rfl
  | cons stmt stmts ih =>
    intro s h schema
    rw [List.foldl_cons, ih h.tail, mark_mem_exec h]

end Order

theorem execAll_eq {k : Kind} (s : Store k) (queries : List (SyncQuery Stmt)) :
    s.execAll queries = (queries.map SyncQuery.stmt).foldl Store.exec s :=
  List.foldl_map.symm

/-! ## Some of the statements of `diff` -/

/-- What ran is among what was sent. -/
def Executed (current wanted : List Grant) (done : List (SyncQuery Stmt)) : Prop :=
  ∀ q ∈ done, q.stmt ∈ (diff current wanted).map SyncQuery.stmt

section Some
variable {k : Kind} {acl : String} {roles : List String} {dbs : DBMap} {database : Database}
  {s : Store k} {current wanted : List Grant} {done : List (SyncQuery Stmt)}

theorem Executed.revoke (h : Executed current wanted done) {g : Grant}
    (hg : .revoke g ∈ done.map SyncQuery.stmt) : Spurious current wanted g := by
  obtain ⟨q, hq, hstmt⟩ := List.mem_map.mp hg
  exact revoke_mem_diff.mp (hstmt ▸ h q hq)

theorem Executed.grant (hw : Wants k acl roles dbs database wanted)
    (hc : Reports acl roles dbs database s current) (h : Executed current wanted done) {e : Grant}
    (he : .grant e ∈ done.map SyncQuery.stmt) : Missing s current wanted e := by
  obtain ⟨q, hq, hstmt⟩ := List.mem_map.mp he
  obtain ⟨hin, hnot, hwild⟩ := grant_mem_diff.mp (hstmt ▸ h q hq)
  rw [wildcard_iff hw hc hin, Bool.not_eq_true] at hwild
  exact ⟨hin, hnot, hwild⟩

/-- A row is known by its grant. -/
theorem current_eq (hc : Reports acl roles dbs database s current) {g g' : Grant}
    (hg : g ∈ current) (hg' : g' ∈ current) (h : (k.rowOf g).full = (k.rowOf g').full) : g = g' := by
  obtain ⟨hrow, heq⟩ := rowOf_mem hc hg
  obtain ⟨hrow', heq'⟩ := rowOf_mem hc hg'
  rw [heq, heq', s.eq_of_full hrow hrow' h]

theorem whole_row (hw : Wants k acl roles dbs database wanted) {e : Grant} (he : e ∈ wanted) :
    (k.rowOf e).full = k.rowOf e := by
  rw [Kind.rowOf_full]
  congr 1
  rw [← (hw.shaped e he).whole]

/-- A current grant on the row of a wanted one is that one, but for being partial. -/
theorem whole_eq (hw : Wants k acl roles dbs database wanted)
    (hc : Reports acl roles dbs database s current) {g e : Grant} (hg : g ∈ current)
    (he : e ∈ wanted) (h : (k.rowOf g).full = (k.rowOf e).full) :
    { g with isPartial := false } = e := by
  have hgrant := congrArg (k.grantOf acl database.name) h
  rwa [Kind.grantOf_full, ← (rowOf_mem hc hg).2, whole_row hw he,
    Kind.grantOf_rowOf (hw.shaped e he)] at hgrant

theorem wanted_eq (hw : Wants k acl roles dbs database wanted) {e e' : Grant} (he : e ∈ wanted)
    (he' : e' ∈ wanted) (h : (k.rowOf e).full = (k.rowOf e').full) : e = e' := by
  rw [whole_row hw he, whole_row hw he'] at h
  rw [← Kind.grantOf_rowOf (hw.shaped e he), h, Kind.grantOf_rowOf (hw.shaped e' he')]

section Executed
variable (hw : Wants k acl roles dbs database wanted)
  (hc : Reports acl roles dbs database s current) (h : Executed current wanted done)
include hw hc h

theorem Executed.independent :
    Independent s (done.map SyncQuery.stmt) where
  revoked g hg := (h.revoke hg).2.2
  granted e he :=
    have hmissing := h.grant hw hc he
    ⟨hw.typed e hmissing.1, hmissing.2.2⟩
  apart g e hg he hsame := by
    obtain ⟨hcur, hnot, _⟩ := h.revoke hg
    have hin := (h.grant hw hc he).1
    exact hnot (whole_eq hw hc hcur hin hsame ▸ hin)

theorem mem_done {r : Row} :
    r ∈ (s.execAll done).rows ↔
      (r ∈ s.rows ∧ ∀ stmt ∈ done.map SyncQuery.stmt, r.full ≠ target k stmt) ∨
        ∃ e, .grant e ∈ done.map SyncQuery.stmt ∧ r = (k.rowOf e).full := by
  rw [execAll_eq]
  exact mem_execs _ (h.independent hw hc)

theorem onMark_done (e : Grant) :
    (s.execAll done).onMark e = s.onMark e := by
  refine onMark_congr (fun schema => ?_) e
  rw [execAll_eq]
  exact mark_mem_execs _ (h.independent hw hc) schema

/-! ### What the server has in the meantime -/

/-- A wanted grant that is there stays. -/
theorem wanted_kept {e : Grant}
    (he : e ∈ wanted) (hrow : k.rowOf e ∈ s.rows) : k.rowOf e ∈ (s.execAll done).rows := by
  have hcur : e ∈ current :=
    (hc e).mpr ⟨_, hrow, (Kind.grantOf_rowOf (hw.shaped e he)).symm, hw.seen e he⟩
  refine (mem_done hw hc h).mpr (.inl ⟨hrow, fun stmt hstmt hkey => ?_⟩)
  cases stmt with
  | revoke g =>
    obtain ⟨hg, hnot, _⟩ := h.revoke hstmt
    exact hnot (whole_eq hw hc hg he hkey.symm ▸ he)
  | grant e' =>
    obtain ⟨he', hmissing, _⟩ := h.grant hw hc hstmt
    exact hmissing (wanted_eq hw he he' hkey ▸ hcur)

/-- What comes up is wanted. -/
theorem new_wanted {r : Row}
    (hr : r ∈ (s.execAll done).rows) :
    r ∈ s.rows ∨ k.grantOf acl database.name r ∈ wanted := by
  rcases (mem_done hw hc h).mp hr with ⟨hold, _⟩ | ⟨e, he, rfl⟩
  · exact .inl hold
  · have hin := (h.grant hw hc he).1
    rw [whole_row hw hin, Kind.grantOf_rowOf (hw.shaped e hin)]
    exact .inr hin

/-- What is not inspected is left alone. -/
theorem outside_kept {r : Row}
    (hout : ¬ Seen roles dbs database (k.grantOf acl database.name r)) :
    r ∈ (s.execAll done).rows ↔ r ∈ s.rows := by
  have hfree : ∀ stmt ∈ done.map SyncQuery.stmt, r.full ≠ target k stmt := by
    intro stmt hstmt
    cases stmt with
    | revoke g =>
      have hcur := (h.revoke hstmt).1
      obtain ⟨_, _, _, hseen⟩ := (hc g).mp hcur
      exact full_ne_of_seen hout (rowOf_mem hc hcur).2 hseen
    | grant e =>
      have hin := (h.grant hw hc hstmt).1
      exact full_ne_of_seen hout (Kind.grantOf_rowOf (hw.shaped e hin)).symm (hw.seen e hin)
  rw [mem_done hw hc h]
  refine ⟨fun hr => ?_, fun hr => .inl ⟨hr, hfree⟩⟩
  rcases hr with ⟨hr, _⟩ | ⟨e, he, hre⟩
  · exact hr
  · exact absurd (by rw [hre, Row.full_full]; rfl) (hfree _ he)

/-! ### The next run -/

theorem revoke_left {current' : List Grant}
    (hc' : Reports acl roles dbs database (s.execAll done) current') (g : Grant) : Spurious current' wanted g ↔
      Spurious current wanted g ∧ .revoke g ∉ done.map SyncQuery.stmt := by
  constructor
  · rintro ⟨hg, hnot, htype⟩
    obtain ⟨r, hr, rfl, hseen⟩ := (hc' g).mp hg
    rcases (mem_done hw hc h).mp hr with ⟨hold, hfree⟩ | ⟨e, he, rfl⟩
    · refine ⟨⟨(hc _).mpr ⟨r, hold, rfl, hseen⟩, hnot, htype⟩, fun hdone => hfree _ hdone ?_⟩
      rw [target, Kind.rowOf_grantOf (s.fits r hold)]
    · have hin := (h.grant hw hc he).1
      refine absurd ?_ hnot
      rw [← Kind.grantOf_full, Row.full_full, whole_row hw hin, Kind.grantOf_rowOf (hw.shaped e hin)]
      exact hin
  · rintro ⟨⟨hg, hnot, htype⟩, hleft⟩
    obtain ⟨r, hr, hgr, hseen⟩ := (hc g).mp hg
    have hrow : k.rowOf g = r := by rw [hgr]; exact Kind.rowOf_grantOf (s.fits r hr)
    refine ⟨(hc' g).mpr ⟨r, (mem_done hw hc h).mpr (.inl ⟨hr, fun stmt hstmt hkey => ?_⟩), hgr, hseen⟩,
      hnot, htype⟩
    rw [← hrow] at hkey
    cases stmt with
    | revoke g' => exact hleft (current_eq hc hg (h.revoke hstmt).1 hkey ▸ hstmt)
    | grant e =>
      have hin := (h.grant hw hc hstmt).1
      exact hnot (whole_eq hw hc hg hin hkey ▸ hin)

theorem grant_left {current' : List Grant}
    (hc' : Reports acl roles dbs database (s.execAll done) current') (e : Grant) : Missing (s.execAll done) current' wanted e ↔
      Missing s current wanted e ∧ .grant e ∉ done.map SyncQuery.stmt := by
  have hpresent : e ∈ wanted → k.rowOf e ∈ (s.execAll done).rows → e ∈ current' := fun he hrow =>
    (hc' e).mpr ⟨_, hrow, (Kind.grantOf_rowOf (hw.shaped e he)).symm, hw.seen e he⟩
  unfold Missing
  rw [onMark_done hw hc h]
  constructor
  · rintro ⟨he, hnot, hmark⟩
    refine ⟨⟨he, fun hcur => hnot (hpresent he ?_), hmark⟩, fun hdone => hnot (hpresent he ?_)⟩
    · exact wanted_kept hw hc h he (rowOf_mem hc hcur).1
    · exact (mem_done hw hc h).mpr (.inr ⟨e, hdone, (whole_row hw he).symm⟩)
  · rintro ⟨⟨he, hnot, hmark⟩, hleft⟩
    refine ⟨he, fun hcur => ?_, hmark⟩
    obtain ⟨hrow, _⟩ := rowOf_mem hc' hcur
    rcases (mem_done hw hc h).mp hrow with ⟨hold, _⟩ | ⟨e', he', hkey⟩
    · exact hnot ((hc e).mpr
        ⟨_, hold, (Kind.grantOf_rowOf (hw.shaped e he)).symm, hw.seen e he⟩)
    · have hin := (h.grant hw hc he').1
      rw [← whole_row hw he] at hkey
      exact hleft (wanted_eq hw he hin hkey ▸ he')

/-- The next run sends what is left. -/
theorem stmt_left {current' wanted' : List Grant}
    (hc' : Reports acl roles dbs database (s.execAll done) current')
    (hsame : ∀ e, e ∈ wanted' ↔ e ∈ wanted) (stmt : Stmt) :
    stmt ∈ (diff current' wanted').map SyncQuery.stmt ↔
      stmt ∈ (diff current wanted).map SyncQuery.stmt ∧ stmt ∉ done.map SyncQuery.stmt := by
  cases stmt with
  | revoke g =>
    rw [revoke_mem_diff, revoke_mem_diff, hsame]
    exact revoke_left hw hc h hc' g
  | grant e =>
    rw [grant_mem_diff, grant_mem_diff, hsame]
    have hleft := grant_left hw hc h hc' e
    unfold Missing at hleft
    by_cases he : e ∈ wanted
    · rwa [wildcard_iff hw hc he, wildcard_iff hw hc' he, Bool.not_eq_true, Bool.not_eq_true]
    · exact iff_of_false (fun h => he h.1) (fun h => he h.1.1)

end Executed

/-- The same statements, in whatever order and however often, have the same effect. -/
theorem rows_congr (hw : Wants k acl roles dbs database wanted)
    (hc : Reports acl roles dbs database s current) {done' : List (SyncQuery Stmt)}
    (h : Executed current wanted done)
    (hsame : ∀ stmt, stmt ∈ done'.map SyncQuery.stmt ↔ stmt ∈ done.map SyncQuery.stmt) (r : Row) :
    r ∈ (s.execAll done').rows ↔ r ∈ (s.execAll done).rows := by
  have h' : Executed current wanted done' := by
    intro q hq
    obtain ⟨q', hq', hstmt⟩ := List.mem_map.mp ((hsame q.stmt).mp (List.mem_map_of_mem hq))
    exact hstmt ▸ h q' hq'
  rw [mem_done hw hc h', mem_done hw hc h]
  simp only [hsame]

end Some

/-! ## `Sync`, again -/

/-- What `Sync` is called with, for a built-in ACL in a managed database. -/
structure Stage (reg : Registry) (dbs : DBMap) (dbname : String) (database : Database)
    (roles : List String) (a : ACL) (wanted expanded : List Grant) : Prop where
  acl : a ∈ builtinACLs
  registered : reg.acls[a.name]? = some a
  managed : dbs.map[dbname]? = some database
  typed : Typed reg
  generated : ∀ g ∈ wanted, Generated reg g ∧ g.acl = a.name
  expands : ∃ o, expand reg dbs o wanted database = .ok expanded
  scope : ∀ e ∈ expanded, e.grantee ∈ roles ∧ InScope roles dbs database e

/-- A run inspects, computes its queries in some order of the maps, and some of them get through. -/
def Attempt (reg : Registry) (dbs : DBMap) (dbname : String) (database : Database)
    (roles : List String) (a : ACL) (wanted : List Grant) (s s' : Store a.kind) : Prop :=
  ∃ o current queries done, inspect reg dbs database a.name roles (.ok s.rows) = .ok current ∧
    sync reg dbs o dbname current wanted = .ok queries ∧ done ⊆ queries ∧ s' = s.execAll done

section Attempts
variable {reg : Registry} {dbs : DBMap} {dbname : String} {database : Database}
  {roles : List String} {a : ACL} {wanted expanded : List Grant}

theorem Stage.wants (h : Stage reg dbs dbname database roles a wanted expanded) :
    Wants a.kind a.name roles dbs database expanded := by
  obtain ⟨o, hexpand⟩ := h.expands
  exact wants_expanded h.acl (by rw [Registry.acl, h.registered]; rfl) h.typed h.generated hexpand
    h.scope

theorem Stage.name_mem (h : Stage reg dbs dbname database roles a wanted expanded) :
    database.name ∈ dbs.map :=
  Dict.mem_iff.mpr ⟨database, by rw [dbs.key dbname database h.managed, h.managed]⟩

theorem Stage.inspects (h : Stage reg dbs dbname database roles a wanted expanded)
    (s : Store a.kind) : ∃ current,
      inspect reg dbs database a.name roles (.ok s.rows) = .ok current ∧
      Reports a.name roles dbs database s current :=
  inspect_store (isA_kind a h.acl) (by rw [Registry.acl, h.registered]; rfl) h.name_mem roles s

theorem Stage.reports (h : Stage reg dbs dbname database roles a wanted expanded) {s : Store a.kind}
    {current : List Grant} (hcurrent : inspect reg dbs database a.name roles (.ok s.rows) = .ok current) :
    Reports a.name roles dbs database s current := by
  obtain ⟨current', hcurrent', hc⟩ := h.inspects s
  cases hcurrent.symm.trans hcurrent'
  exact hc

/-- `Sync` sends the statements of `diff`, in an order of its own. -/
theorem Stage.sends (h : Stage reg dbs dbname database roles a wanted expanded) (o : Order)
    (current : List Grant) : ∃ queries, sync reg dbs o dbname current wanted = .ok queries ∧
      ∀ stmt, stmt ∈ queries.map SyncQuery.stmt ↔
        stmt ∈ (diff current expanded).map SyncQuery.stmt := by
  obtain ⟨o', hexpand⟩ := h.expands
  obtain ⟨expanded', hqueries, hsame⟩ := exists_sync_eq_diff h.managed h.name_mem hexpand o current
  refine ⟨diff current expanded', hqueries, fun stmt => ?_⟩
  cases stmt with
  | revoke g => rw [revoke_mem_diff, revoke_mem_diff, hsame]
  | grant e => rw [grant_mem_diff, grant_mem_diff, hsame]

theorem Stage.executed (h : Stage reg dbs dbname database roles a wanted expanded) {o : Order}
    {current : List Grant} {queries done : List (SyncQuery Stmt)}
    (hqueries : sync reg dbs o dbname current wanted = .ok queries) (hdone : done ⊆ queries) :
    Executed current expanded done := by
  obtain ⟨queries', hqueries', hsent⟩ := h.sends o current
  cases hqueries.symm.trans hqueries'
  exact fun q hq => (hsent q.stmt).mp (List.mem_map_of_mem (hdone hq))

/-- **Safety of interrupted runs.** Let runs follow one another, each stopped anywhere. At no point
has a wanted grant been lost; a grant that is there was there at the start or is wanted; and what
inspection does not see is as it was. -/
theorem attempts_safe (h : Stage reg dbs dbname database roles a wanted expanded)
    {s s' : Store a.kind}
    (hrun : Relation.ReflTransGen (Attempt reg dbs dbname database roles a wanted) s s') :
    (∀ e ∈ expanded, a.kind.rowOf e ∈ s.rows → a.kind.rowOf e ∈ s'.rows) ∧
    (∀ r ∈ s'.rows, r ∈ s.rows ∨ a.kind.grantOf a.name database.name r ∈ expanded) ∧
    ∀ r, ¬ Seen roles dbs database (a.kind.grantOf a.name database.name r) →
      (r ∈ s'.rows ↔ r ∈ s.rows) := by
  have hw := h.wants
  induction hrun with
  | refl => exact ⟨fun _ _ => id, fun _ => .inl, fun _ _ => Iff.rfl⟩
  | tail _ hlast ih =>
    obtain ⟨o, current, queries, done, hcurrent, hqueries, hdone, rfl⟩ := hlast
    obtain ⟨hkept, hnew, hout⟩ := ih
    have hc := h.reports hcurrent
    have hexecuted := h.executed hqueries hdone
    refine ⟨fun e he hrow => wanted_kept hw hc hexecuted he (hkept e he hrow), fun r hr => ?_,
      fun r hr => (outside_kept hw hc hexecuted hr).trans (hout r hr)⟩
    rcases new_wanted hw hc hexecuted hr with hold | hin
    · exact hnew r hold
    · exact .inr hin

/-- **A retry sends what is left.** After a run of which only some statements got through, the next
one sends exactly the others, whatever the orders of the maps, and with them the server is where the
whole run would have brought it. -/
theorem retry_sends_rest (h : Stage reg dbs dbname database roles a wanted expanded)
    {s : Store a.kind} {o : Order} {current : List Grant} {queries done : List (SyncQuery Stmt)}
    (hcurrent : inspect reg dbs database a.name roles (.ok s.rows) = .ok current)
    (hqueries : sync reg dbs o dbname current wanted = .ok queries) (hdone : done ⊆ queries)
    (o' : Order) :
    ∃ current' queries',
      inspect reg dbs database a.name roles (.ok (s.execAll done).rows) = .ok current' ∧
      sync reg dbs o' dbname current' wanted = .ok queries' ∧
      (∀ stmt, stmt ∈ queries'.map SyncQuery.stmt ↔
        stmt ∈ queries.map SyncQuery.stmt ∧ stmt ∉ done.map SyncQuery.stmt) ∧
      ∀ r, r ∈ ((s.execAll done).execAll queries').rows ↔ r ∈ (s.execAll queries).rows := by
  have hw := h.wants
  have hc := h.reports hcurrent
  have hexecuted := h.executed hqueries hdone
  obtain ⟨current', hcurrent', hc'⟩ := h.inspects (s.execAll done)
  obtain ⟨queries', hqueries', hsent'⟩ := h.sends o' current'
  obtain ⟨sent, hsync, hsent⟩ := h.sends o current
  cases hqueries.symm.trans hsync
  have hleft : ∀ stmt, stmt ∈ queries'.map SyncQuery.stmt ↔
      stmt ∈ queries.map SyncQuery.stmt ∧ stmt ∉ done.map SyncQuery.stmt := by
    intro stmt
    rw [hsent', hsent, stmt_left hw hc hexecuted hc' (fun _ => Iff.rfl)]
  refine ⟨current', queries', hcurrent', hqueries', hleft, fun r => ?_⟩
  have hboth : ∀ stmt, stmt ∈ (done ++ queries').map SyncQuery.stmt ↔
      stmt ∈ queries.map SyncQuery.stmt := by
    intro stmt
    rw [List.map_append, List.mem_append, hleft]
    constructor
    · rintro (hin | ⟨hin, _⟩)
      · exact List.map_subset _ hdone hin
      · exact hin
    · intro hin
      by_cases hran : stmt ∈ done.map SyncQuery.stmt
      · exact .inl hran
      · exact .inr ⟨hin, hran⟩
  have happend : (s.execAll done).execAll queries' = s.execAll (done ++ queries') :=
    List.foldl_append.symm
  rw [happend]
  exact rows_congr hw hc (h.executed hqueries (List.Subset.refl _)) hboth r

end Attempts

open Ldap.Sample Sample

theorem tables_stage : ∃ expanded, Stage (registry "SELECT" tables.name) onlyApp "app" app
    ["alice", "bob"] tables [wanted "SELECT" tables.name "__all__"] expanded := by
  obtain ⟨expanded, hexpand, hscope⟩ := tables_expand
  exact ⟨expanded, by simp [builtinACLs, tables], rfl, rfl, tables_typed, tables_generated,
    ⟨_, hexpand⟩, hscope⟩

/-- One statement of the run gets through. -/
theorem tables_attempt_safe : ∃ (expanded current : List Grant) (queries : List (SyncQuery Stmt)),
    Stage (registry "SELECT" tables.name) onlyApp "app" app ["alice", "bob"] tables
      [wanted "SELECT" tables.name "__all__"] expanded ∧
    inspect (registry "SELECT" tables.name) onlyApp app tables.name ["alice", "bob"]
      (.ok someTables.rows) = .ok current ∧
    sync (registry "SELECT" tables.name) onlyApp Order.sorted "app" current
      [wanted "SELECT" tables.name "__all__"] = .ok queries ∧
    ∀ r ∈ (someTables.execAll (queries.take 1)).rows,
      r ∈ someTables.rows ∨ tables.kind.grantOf tables.name "app" r ∈ expanded := by
  obtain ⟨expanded, h⟩ := tables_stage
  obtain ⟨current, hcurrent, _⟩ := h.inspects someTables
  obtain ⟨queries, hqueries, _⟩ := h.sends Order.sorted current
  have hsafe := attempts_safe h (.single ⟨Order.sorted, current, queries, queries.take 1, hcurrent,
    hqueries, List.take_subset 1 queries, rfl⟩)
  exact ⟨expanded, current, queries, h, hcurrent, hqueries, hsafe.2.1⟩

theorem tables_retry : ∃ current queries current' queries',
    inspect (registry "SELECT" tables.name) onlyApp app tables.name ["alice", "bob"]
      (.ok someTables.rows) = .ok current ∧
    sync (registry "SELECT" tables.name) onlyApp Order.sorted "app" current
      [wanted "SELECT" tables.name "__all__"] = .ok queries ∧
    inspect (registry "SELECT" tables.name) onlyApp app tables.name ["alice", "bob"]
      (.ok (someTables.execAll (queries.take 1)).rows) = .ok current' ∧
    sync (registry "SELECT" tables.name) onlyApp Order.sorted "app" current'
      [wanted "SELECT" tables.name "__all__"] = .ok queries' ∧
    ∀ stmt, stmt ∈ queries'.map SyncQuery.stmt ↔
      stmt ∈ queries.map SyncQuery.stmt ∧ stmt ∉ (queries.take 1).map SyncQuery.stmt := by
  obtain ⟨expanded, h⟩ := tables_stage
  obtain ⟨current, hcurrent, _⟩ := h.inspects someTables
  obtain ⟨queries, hqueries, _⟩ := h.sends Order.sorted current
  obtain ⟨current', queries', hcurrent', hqueries', hleft, _⟩ :=
    retry_sends_rest h hcurrent hqueries (List.take_subset 1 queries) Order.sorted
  exact ⟨current, queries, current', queries', hcurrent, hqueries, hcurrent', hqueries', hleft⟩

end Ldap2pg.Privileges.Retry
