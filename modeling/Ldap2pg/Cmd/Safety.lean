import Ldap2pg.Cmd

/-! # What a run never does

The filters that keep a run away from blacklisted and unmanaged roles are spread
over its stages. Here they are put together, over everything that reaches the
server. -/
namespace Ldap2pg.Cmd.Safety
open Lib Ldap2pg.Lists Pyfmt Ldap Postgres Roles
open Privileges Wanted Inspect

variable {name : String} {sc : SyncCall}

variable {c : Conf} {o : Order} {server : Server} {inst : Instance} {wanted : Outcome} {s : Stage1}

/-! ## Failing closed -/

/-- What goes wrong while the wanted state is generated. -/
def Fails (c : Conf) (o : Order) (blacklist : List String) : Prop :=
  c.rules.Fails c.env c.reg ⟨c.growth, c.glob, blacklist⟩ o c.ldapc c.configs

/-- **Generation fails closed.** If something goes wrong, `Run` returns an error
or panics, and nothing reaches the server. It panics only if a step that does not
search holds a dynamic rule, or if a pattern of the blacklist is malformed on the name
of a generated role or on a grantee. When `Run` returns no error, the wanted state is
well formed. -/
theorem generation_fails_closed (c : Conf) (o : Order) (blacklist : List String) :
    (Fails c (o.sub 0) blacklist →
      (∀ out, c.run (o.sub 0) blacklist = .ok out → out.err ≠ none) ∧
      (∀ p, c.run (o.sub 0) blacklist = .error p → (∃ step ∈ c.rules, ¬ step.Covered) ∨
        p = .badPattern ∧ ∃ events,
          c.rules.events c.env c.reg ((o.sub 0).sub 0) c.ldapc = .ok events ∧
          BadPattern ⟨c.growth, c.glob, blacklist⟩ events) ∧
      ∀ server inst, stage0 c.glob server c.fallbackOwner = .ok inst →
        inst.rolesBlacklist = blacklist → (ldap2pg c o server).emitted = []) ∧
    ∀ out, c.run (o.sub 0) blacklist = .ok out → out.err = none →
      out.WellFormed ⟨c.growth, c.glob, blacklist⟩ := by
  refine ⟨fun hfails => ⟨fun out hrun => hfails.err_ne_none hrun, fun p hpanic => ?_, ?_⟩,
    fun out hrun hnil => Outcome.wellFormed_of_run hrun hnil⟩
  · refine or_iff_not_imp_left.mpr fun hcovered => ?_
    have hall : ∀ step ∈ c.rules, step.Covered := fun step hstep =>
      not_not.mp fun hnot => hcovered ⟨step, hstep, hnot⟩
    rcases Rules.run_covered c.env c.reg ⟨c.growth, c.glob, blacklist⟩ (o.sub 0) c.connect c.ldapc
      c.configs hall with ⟨out, hout⟩ | ⟨hbad, hevents⟩
    · cases hpanic.symm.trans hout
    · cases hpanic.symm.trans hbad
      exact ⟨rfl, hevents⟩
  · rintro server inst h0 rfl
    apply List.eq_nil_iff_forall_not_mem.mpr
    intro call hcall
    obtain ⟨inst', wanted, s, _, hp, _⟩ := mem_ldap2pg.mp hcall
    cases h0.symm.trans hp.stage0
    exact hfails.err_ne_none hp.run hp.nil

/-- A server with one database and a role `bob` that is managed. -/
def oneRole : Server where
  session := .ok { serverVersionNum := 160000, database := "app", user := "postgres", super := true }
  rolesBlacklistQuery := .ok []
  databasesQuery := .ok ["app"]
  databases := .ok [⟨"app", "postgres"⟩]
  roleColumns := .ok ["rolcanlogin"]
  roles := .ok [⟨{ name := "bob" }, by decide⟩]
  managedRolesQuery := some (.ok ["bob"])
  schemasQuery := fun _ => .ok []
  schemas := fun _ => .ok []
  creators := fun _ => .ok []
  grants := fun _ _ => .ok []

section Panic
open Ldap.Sample Wanted.Sample

/-- A rule with a parent to render, in a step that has nothing to render it with. -/
def uncovered : Step where
  roleRules := [{ roleRule (literal "bob") [] with
    parents := [⟨"\x7bdn\x7d", [.field { fieldName := "dn" }]⟩] }]

/-- No answer from the directory, and a rule that cannot be rendered. -/
def unanswered (rules : Rules) : Conf where
  env := env
  reg := noPrivileges
  growth := .doubling
  glob := noBlacklist.glob
  rules := { ldapSearch := { attributes := ["member"] } } :: rules
  configs := fun _ => ∅
  fallbackOwner := ""
  connect := none
  ldapc := fun _ _ => .error "timeout"

theorem unanswered_fails (rules : Rules) (o : Order) (blacklist : List String) :
    Fails (unanswered rules) o blacklist := by
  refine .search ⟨(0, _), List.mem_cons_self, ?_⟩
  exact .main "timeout" rfl rfl

/-- The panic hides the failed search: `Run` does not return. -/
theorem unanswered_panics :
    Fails (unanswered [uncovered]) (Order.sorted.sub 0) [] ∧
      (unanswered [uncovered]).run (Order.sorted.sub 0) [] = .error .dynamicWithoutValues :=
  ⟨unanswered_fails _ _ _, rfl⟩

/-- Without that rule `Run` returns the error, and nothing is emitted. -/
theorem unanswered_emits_nothing : ∃ inst, stage0 noBlacklist.glob oneRole "" = .ok inst ∧
    (ldap2pg (unanswered []) Order.sorted oneRole).emitted = [] := by
  refine ⟨_, rfl, ?_⟩
  exact ((generation_fails_closed (unanswered []) Order.sorted _).1
    (unanswered_fails [] (Order.sorted.sub 0) _)).2.2 oneRole _ rfl rfl

end Panic

/-! ## Blacklisted and unmanaged roles -/

/-- The name matches no pattern of the blacklist. -/
def Unlisted (c : Conf) (inst : Instance) (name : String) : Prop :=
  ∀ pattern ∈ inst.rolesBlacklist, c.glob.isMatch pattern name = false

/-- What the calls of a run keep away from. -/
structure OutOfReach (c : Conf) (server : Server) (inst : Instance) (wanted : Outcome) (s : Stage1)
    (calls : List Call) : Prop where
  subject : ∀ queries, .roles queries ∈ calls → ∀ q ∈ queries, ∀ name,
    q.stmt.subject = some name → Unlisted c inst name
  drop : ∀ name, (∃ queries, .roles queries ∈ calls ∧ .drop name ∈ queries.map SyncQuery.stmt) ↔
    server.Manages name ∧ Unlisted c inst name ∧ server.HasRole name ∧ name ∉ wanted.roles ∧
      name ≠ "public"
  grant : ∀ sc, .sync sc ∈ calls → ∀ g, .grant g ∈ sc.queries.map SyncQuery.stmt →
    g.grantee ∈ wanted.roles
  revoke : ∀ sc, .sync sc ∈ calls → ∀ g, .revoke g ∈ sc.queries.map SyncQuery.stmt →
    (g.grantee ∈ wanted.roles ∨ g.grantee = "public" ∧ "public" ∈ s.managedRoles) ∧
      (g.database = "" ∨ server.ManagesDatabase g.database) ∧
      (g.schema = "" ∨ server.ManagesSchema sc.dbname g.schema)

theorem unlisted_of_wanted (h : Prepared c o server inst wanted s) (hname : name ∈ wanted.roles) :
    Unlisted c inst name := by
  obtain ⟨r, hr⟩ := Dict.mem_iff.mp hname
  exact (h.wellFormed.name name r hr).2.2

/-- What is dropped, in terms of what the server answers. -/
theorem dropped_iff (h : Prepared c o server inst wanted s) :
    Dropped s.allRoles s.managedRoles wanted.roles name ↔
      server.Manages name ∧ Unlisted c inst name ∧ server.HasRole name ∧ name ∉ wanted.roles ∧
        name ≠ "public" := by
  have hspec := stage1_spec h.stage1
  constructor
  · intro hd
    obtain ⟨hrole, hlist⟩ := (hspec.mem_all name).mp hd.present
    exact ⟨(hspec.managed name hd.present).mp hd.managed, hlist, hrole, hd.unwanted, hd.notPublic⟩
  · intro ⟨hmanaged, hlist, hrole, hwanted, hpublic⟩
    have hall : name ∈ s.allRoles := (hspec.mem_all name).mpr ⟨hrole, hlist⟩
    exact ⟨(hspec.managed name hall).mpr hmanaged, hwanted, hpublic, hall⟩

/-- The only call on roles is that of the role stage. -/
theorem roles_mem_ldap2pg (h : Prepared c o server inst wanted s) {queries : List Roles.Query} :
    .roles queries ∈ (ldap2pg c o server).emitted ↔
      stage s.columns (o.sub 1) s.allRoles s.managedRoles wanted.roles inst.fallbackOwner
        s.databases inst.defaultDatabase = some queries := by
  obtain ⟨out, hout, hstage, _⟩ := h.roleStage
  rw [hstage, Option.some_inj, mem_ldap2pg]
  constructor
  · intro ⟨inst', wanted', s', out', h', hout', hcall⟩
    cases h.stage0.symm.trans h'.stage0
    cases h.run.symm.trans h'.run
    cases h.stage1.symm.trans h'.stage1
    cases hout.symm.trans hout'
    rcases hcall with hcall | ⟨_, _, hcall⟩
    · exact (Call.roles.inj hcall).symm
    · obtain ⟨_, hsync, _⟩ := h.isSync hout hcall
      cases hsync
  · rintro rfl
    exact ⟨inst, wanted, s, out, h, hout, .inl rfl⟩

theorem unlisted_of_subject (h : Prepared c o server inst wanted s) {queries : List Roles.Query}
    (hcall : .roles queries ∈ (ldap2pg c o server).emitted) {q : Roles.Query} (hq : q ∈ queries)
    (hname : q.stmt.subject = some name) : Unlisted c inst name := by
  have hstage := (roles_mem_ldap2pg h).mp hcall
  rcases subject_mem_stage hstage (stage1_spec h.stage1).key h.keyIsName h.wellFormed.acyclic hq
    hname with hwanted | hdropped
  · exact unlisted_of_wanted h hwanted
  · exact ((dropped_iff h).mp hdropped).2.1

theorem drop_mem_ldap2pg (h : Prepared c o server inst wanted s) :
    (∃ queries, .roles queries ∈ (ldap2pg c o server).emitted ∧
      .drop name ∈ queries.map SyncQuery.stmt) ↔
    server.Manages name ∧ Unlisted c inst name ∧ server.HasRole name ∧ name ∉ wanted.roles ∧
      name ≠ "public" := by
  obtain ⟨out, _, hstage, _⟩ := h.roleStage
  have hspec := stage1_spec h.stage1
  rw [← dropped_iff h,
    ← drop_mem_stage hstage hspec.key h.keyIsName h.wellFormed.acyclic hspec.default]
  constructor
  · intro ⟨queries, hcall, hdrop⟩
    cases hstage.symm.trans ((roles_mem_ldap2pg h).mp hcall)
    exact hdrop
  · intro hdrop
    exact ⟨out.1, (roles_mem_ldap2pg h).mpr hstage, hdrop⟩

/-- A call to `Sync` is one of the privilege stage. -/
theorem sync_mem_ldap2pg (h : Prepared c o server inst wanted s)
    (hcall : .sync sc ∈ (ldap2pg c o server).emitted) :
    sc.Made ⟨c.reg, server, effectiveRoles wanted.roles s, wanted.grants, inst.defaultDatabase⟩ := by
  obtain ⟨inst', wanted', s', out, h', hout, hcall⟩ := mem_ldap2pg.mp hcall
  cases h.stage0.symm.trans h'.stage0
  cases h.run.symm.trans h'.run
  cases h.stage1.symm.trans h'.stage1
  rcases hcall with hcall | ⟨_, _, hcall⟩
  · cases hcall
  · obtain ⟨sc', hsync, hmade⟩ := h.isSync hout hcall
    exact Call.sync.inj hsync ▸ hmade

/-- `Sync` finds the database it is called on. -/
theorem databaseOf_made {p : Plan} (h : sc.Made p) :
    ∃ d, sc.dbs.map[sc.dbname]? = some d ∧ databaseOf sc.dbs sc.dbname = d ∧ d.name = sc.dbname := by
  obtain ⟨d, hd⟩ := Dict.mem_iff.mp h.managed
  exact ⟨d, hd, by rw [databaseOf, hd]; rfl, sc.dbs.key sc.dbname d hd⟩

theorem grantee_of_grant {p : Plan} (h : sc.Made p) {g : Grant}
    (hg : .grant g ∈ sc.queries.map SyncQuery.stmt) :
    ∃ l, p.wanted[sc.acl]? = some l ∧ ∃ w ∈ l, g.grantee = w.grantee := by
  obtain ⟨o, current, _, hsync⟩ := h.queries
  obtain ⟨expanded, hexpand, hqueries⟩ := sync_eq_ok hsync
  rw [hqueries] at hg
  obtain ⟨w, hw, hx⟩ := (mem_expand hexpand).mp (grant_mem_diff.mp hg).1
  cases hl : p.wanted[sc.acl]? with
  | none => rw [hl] at hw; cases hw
  | some l =>
    rw [hl] at hw
    exact ⟨l, rfl, w, hw, by rw [hx.same]⟩

theorem scope_of_revoke {p : Plan} (h : sc.Made p) {g : Grant}
    (hg : .revoke g ∈ sc.queries.map SyncQuery.stmt) :
    g.grantee ∈ p.roles ∧ (g.database = "" ∨ p.server.ManagesDatabase g.database) ∧
      (g.schema = "" ∨ p.server.ManagesSchema sc.dbname g.schema) := by
  obtain ⟨d, hd, hof, hname⟩ := databaseOf_made h
  obtain ⟨o, current, hinspect, hsync⟩ := h.queries
  obtain ⟨expanded, _, hqueries⟩ := sync_eq_ok hsync
  rw [hqueries] at hg
  obtain ⟨hmem, _, htype⟩ := revoke_mem_diff.mp hg
  rw [hof] at hinspect
  obtain ⟨hscope, hgrantee⟩ := inspect_inScope (hname ▸ h.managed) hinspect g hmem
  exact ⟨hgrantee htype, hscope.database.imp_right (h.surveyed.databases _),
    hscope.schema.imp_right (h.surveyed.schemas _ d hd _)⟩

theorem mem_effectiveRoles : name ∈ effectiveRoles wanted.roles s ↔
    name ∈ wanted.roles ∨ name = "public" ∧ "public" ∈ s.managedRoles := by
  unfold effectiveRoles
  split
  case isTrue h => simp [h]
  case isFalse h => simp [h]

/-- **Blacklisted and unmanaged roles are out of reach**, in every run. -/
theorem unmanaged_out_of_reach (c : Conf) (o : Order) (server : Server) :
    ((¬ ∃ inst wanted s, Prepared c o server inst wanted s) → (ldap2pg c o server).emitted = []) ∧
    ∀ inst wanted s, Prepared c o server inst wanted s →
      OutOfReach c server inst wanted s (ldap2pg c o server).emitted := by
  refine ⟨fun hnone => ?_, fun inst wanted s h => ⟨?_, ?_, ?_, ?_⟩⟩
  · apply List.eq_nil_iff_forall_not_mem.mpr
    intro call hcall
    obtain ⟨inst, wanted, s, _, hp, _⟩ := mem_ldap2pg.mp hcall
    exact hnone ⟨inst, wanted, s, hp⟩
  · exact fun queries hcall q hq name hname => unlisted_of_subject h hcall hq hname
  · exact fun name => drop_mem_ldap2pg h
  · intro sc hcall g hg
    obtain ⟨l, hl, w, hw, he⟩ := grantee_of_grant (sync_mem_ldap2pg h hcall) hg
    exact he ▸ (h.wellFormed.filed sc.acl l hl w hw).2
  · intro sc hcall g hg
    obtain ⟨hgrantee, hscope⟩ := scope_of_revoke (sync_mem_ldap2pg h hcall) hg
    exact ⟨mem_effectiveRoles.mp hgrantee, hscope⟩

/-- Nobody wants `bob` any more. -/
def nothingWanted : Conf := { unanswered [] with rules := [] }

theorem bob_is_dropped : ∃ queries, .roles queries ∈ (ldap2pg nothingWanted Order.sorted oneRole).emitted ∧
    .drop "bob" ∈ queries.map SyncQuery.stmt := by
  refine (((unmanaged_out_of_reach nothingWanted Order.sorted oneRole).2 _ _ _
    ⟨rfl, rfl, rfl, rfl⟩).drop "bob").mpr ⟨?_, ?_, ?_, by decide, by decide⟩
  · intro query hquery
    cases hquery
    exact ⟨_, rfl, by decide⟩
  · intro pattern _
    rfl
  · exact ⟨_, rfl, _, List.mem_singleton.mpr rfl, rfl⟩

end Ldap2pg.Cmd.Safety
