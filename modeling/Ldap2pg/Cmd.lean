import Ldap2pg.Lib.Proc
import Ldap2pg.Inspect
import Ldap2pg.Roles.Diff
import Ldap2pg.Wanted.FailClosed

/-! # `internal/cmd`: one run of `ldap2pg`

The stages follow each other: blacklist, wanted state, inspection, roles, then
the privileges of each database in turn. `Call` is what reaches the server, with
the queries handed to `postgres.Apply`. Whether `Apply` runs all of them is up to
the server: its errors are answers of `Server`, and they are counted. -/
namespace Ldap2pg.Cmd
open Lib Ldap2pg.Lists Pyfmt Ldap Postgres Roles
open Privileges Wanted Inspect

variable {wanted : Outcome} {inst : Instance}

/-- What a run reads besides the server: the configuration and the directory. -/
structure Conf where
  env : Env
  reg : Registry
  growth : Growth
  glob : Glob
  rules : Rules
  configs : ConfigRef → Config
  fallbackOwner : String
  connect : Option String
  ldapc : Directory

/-- `ArePrivilegesManaged`: each profile of the configuration is registered. -/
def Conf.arePrivilegesManaged (c : Conf) : Bool := !c.reg.profiles.isEmpty

/-- `conf.Rules.Run(instance.RolesBlacklist)`. -/
def Conf.run (c : Conf) (o : Order) (blacklist : List String) : Except Panic Outcome :=
  c.rules.run c.env c.reg ⟨c.growth, c.glob, blacklist⟩ o c.connect c.ldapc c.configs

/-- A call to `privileges.Sync`, with the databases as it finds them. -/
structure SyncCall where
  dbname : String
  acl : String
  dbs : DBMap
  queries : List (SyncQuery Privileges.Stmt)

inductive Call where
  | roles (queries : List Roles.Query)
  | sync (call : SyncCall)

abbrev Main := Proc Call Stop

/-- `errorlist.Value`. -/
def value : List String → String
  | [err] => "synchronization errors: " ++ err
  | errs => "\n".intercalate ("synchronization errors" :: errs)

/-- `syncErrors.Append`, and the return when the list is full. -/
def append (stage : String) (errs new : List String) : Main (List String) := do
  let full := new ≠ [] ∧ 8 ≤ (errs ++ new).length
  Proc.guard (if full then some (.error (stage ++ value (errs ++ new))) else none)
  return errs ++ new

theorem append_emitted (stage : String) (errs new : List String) :
    (append stage errs new).emitted = [] := by
  simp only [append, bind, Proc.guard]
  split <;> rfl

/-- What the loop over databases reads. -/
structure Plan where
  reg : Registry
  server : Server
  roles : List String
  wanted : Dict (List Grant)
  defaultDatabase : String

/-- `SplitManagedACLs`. -/
def splitManagedACLs (reg : Registry) (o : Order) : List String × List String × List String :=
  let names := o.range reg.managedACLs.keys
  (names.filter fun n => !(reg.acl n).uses "owner" && (reg.acl n).scope == "instance",
    names.filter fun n => !(reg.acl n).uses "owner" && (reg.acl n).scope != "instance",
    names.filter fun n => (reg.acl n).uses "owner")

section Loops
variable (p : Plan) (o : Order)

/-- The body of the loop of `syncPrivileges`. -/
def syncACL (dbs : DBMap) (dbname : String) (errs : List String) (ai : String × Nat) :
    Main (List String) :=
  match inspect p.reg dbs (databaseOf dbs dbname) ai.1 p.roles (p.server.grants dbname ai.1) with
  | .error err => return errs ++ ["inspect: " ++ err]
  | .ok current => do
    let queries ← Proc.lift .panic
      (sync p.reg dbs (o.sub ai.2) dbname current (p.wanted[ai.1]?.getD []))
    Proc.emit [.sync ⟨dbname, ai.1, dbs, queries⟩]
    return errs ++ (p.server.grantsError dbname ai.1).toList.map ("sync: " ++ ·)

def syncPrivileges (dbs : DBMap) (dbname : String) (acls : List String) : Main (List String) :=
  acls.zipIdx.foldlM (syncACL p o dbs dbname) []

/-- Stage 2 of one database, then stage 3 if there are default privileges. The
loop carries the databases and the errors. -/
def syncDatabase (acls : List String × List String × List String) (st : DBMap × List String)
    (di : String × Nat) : Main (DBMap × List String) := do
  let dbs ← Proc.lift (fun err => .error ("inspect: " ++ err)) (stage2 p.server di.1 st.1)
  let stageACLs := (if di.1 = p.defaultDatabase then acls.1 else []) ++ acls.2.1
  let errs ← syncPrivileges p ((o.sub di.2).sub 0) dbs di.1 stageACLs
  let errs ← append "stage 2: " st.2 errs
  if acls.2.2 = [] then return (dbs, errs)
  else
    let dbs ← Proc.lift (fun err => .error ("inspect: " ++ err)) (stage3 p.server di.1 p.roles dbs)
    let new ← syncPrivileges p ((o.sub di.2).sub 1) dbs di.1 acls.2.2
    let errs ← append "stage 3: " errs new
    return (dbs, errs)

/-- The loop over databases, the default one first. -/
def syncDatabases (dbs : DBMap) (errs : List String) : Main (DBMap × List String) :=
  (syncOrder dbs.map p.defaultDatabase true).zipIdx.foldlM
    (syncDatabase p (o.sub 1) (splitManagedACLs p.reg (o.sub 0))) (dbs, errs)

end Loops

/-- The managed roles: the wanted ones, with `public` if it is managed. -/
def effectiveRoles (wanted : RoleMap) (s : Stage1) : List String :=
  wanted.keys ++ if "public" ∈ s.managedRoles then ["public"] else []

/-- `role.Diff` and `GroupByDatabase`, with the databases as `Drop` leaves them. -/
def roleStage (o : Order) (inst : Instance) (s : Stage1) (wanted : RoleMap) :
    Except Panic (List Roles.Query × DBMap) :=
  match Roles.diff s.columns o s.allRoles s.managedRoles wanted inst.fallbackOwner s.databases with
  | none => .error .stackOverflow
  | some out => do
    let queries ← groupByDatabase s.databases.map inst.defaultDatabase out.1
    return (queries, out.2)

/-- The privileges, when they are managed. -/
def privilegeStage (c : Conf) (o : Order) (server : Server) (inst : Instance) (s : Stage1)
    (wanted : Outcome) (dbs : DBMap) (errs : List String) : Main (DBMap × List String) :=
  if c.arePrivilegesManaged then
    syncDatabases ⟨c.reg, server, effectiveRoles wanted.roles s, wanted.grants, inst.defaultDatabase⟩
      o dbs errs
  else return (dbs, errs)

/-- The run after the wanted state is known. -/
def synchronize (c : Conf) (o : Order) (server : Server) (inst : Instance) (wanted : Outcome) :
    Main (List String) := do
  let s ← Proc.lift id (stage1 c.glob inst server)
  let out ← Proc.lift .panic (roleStage (o.sub 1) inst s wanted.roles)
  Proc.emit [.roles out.1]
  let errs ← append "" [] server.rolesErrors
  let st ← privilegeStage c (o.sub 2) server inst s wanted out.2 errs
  return st.2

/-- `ldap2pg`, up to `Finalize`: returns the synchronisation errors. -/
def ldap2pg (c : Conf) (o : Order) (server : Server) : Main (List String) := do
  let inst ← Proc.lift .error (stage0 c.glob server c.fallbackOwner)
  let wanted ← Proc.lift .panic (c.run (o.sub 0) inst.rolesBlacklist)
  Proc.guard (wanted.err.map .error)
  synchronize c o server inst wanted

/-! ## What a run goes through before it emits anything -/

section Spec
variable {c : Conf} {o : Order} {server : Server}

/-- The run knows the wanted state and has inspected the instance. -/
structure Prepared (c : Conf) (o : Order) (server : Server) (inst : Instance) (wanted : Outcome)
    (s : Stage1) : Prop where
  stage0 : stage0 c.glob server c.fallbackOwner = .ok inst
  run : c.run (o.sub 0) inst.rolesBlacklist = .ok wanted
  nil : wanted.err = none
  stage1 : stage1 c.glob inst server = .ok s

theorem Prepared.wellFormed {s : Stage1} (h : Prepared c o server inst wanted s) :
    wanted.WellFormed ⟨c.growth, c.glob, inst.rolesBlacklist⟩ :=
  Outcome.wellFormed_of_run h.run h.nil

theorem Prepared.keyIsName {s : Stage1} (h : Prepared c o server inst wanted s) :
    KeyIsName wanted.roles :=
  fun n r hr => (h.wellFormed.name n r hr).2.1

/-- The role stage of a prepared run always returns. -/
theorem Prepared.roleStage {s : Stage1} (h : Prepared c o server inst wanted s) : ∃ out,
      Cmd.roleStage (o.sub 1) inst s wanted.roles = .ok out ∧
        stage s.columns (o.sub 1) s.allRoles s.managedRoles wanted.roles inst.fallbackOwner
          s.databases inst.defaultDatabase = some out.1 ∧
        out.2 = (drops ((o.sub 1).sub 2) (dropped ((o.sub 1).sub 3) s.allRoles s.managedRoles
          wanted.roles) inst.fallbackOwner s.databases).2 := by
  obtain ⟨out, hout⟩ := diff_total s.columns (o.sub 1) s.allRoles s.managedRoles inst.fallbackOwner
    s.databases h.keyIsName h.wellFormed.acyclic
  obtain ⟨queries, hgroup⟩ := groupByDatabase_total (stage1_spec h.stage1).default out.1
  have hdbs := diff_databases hout
  refine ⟨(queries, out.2), ?_, ?_, hdbs⟩
  · rw [Cmd.roleStage, hout]
    simp only [hgroup]
    rfl
  · rw [stage, hout]
    simp only [Option.bind_eq_bind, Option.bind_some, hgroup]
    rfl

/-- What reaches the server is the queries of the role stage, then the calls of
the privilege stage, in a run that is prepared. -/
theorem mem_ldap2pg {call : Call} : call ∈ (ldap2pg c o server).emitted ↔
    ∃ inst wanted s out, Prepared c o server inst wanted s ∧
      roleStage (o.sub 1) inst s wanted.roles = .ok out ∧
      (call = .roles out.1 ∨ ∃ errs, (append "" [] server.rolesErrors).result = .ok errs ∧
        call ∈ (privilegeStage c (o.sub 2) server inst s wanted out.2 errs).emitted) := by
  have hlast : ∀ {x : Main (DBMap × List String)}, call ∈ (x >>= fun st => pure st.2).emitted ↔
      call ∈ x.emitted := by
    intro x
    rw [Proc.mem_bind]
    exact or_iff_left fun ⟨_, _, h⟩ => absurd h List.not_mem_nil
  simp only [ldap2pg, synchronize, Proc.mem_lift_bind, Proc.mem_guard_bind]
  constructor
  · intro ⟨inst, h0, wanted, hrun, hnil, s, h1, out, hout, h⟩
    refine ⟨inst, wanted, s, out, ⟨h0, hrun, Option.map_eq_none_iff.mp hnil, h1⟩, hout, ?_⟩
    rcases Proc.mem_bind.mp h with h | ⟨_, _, h⟩
    · exact .inl (List.mem_singleton.mp h)
    · rcases Proc.mem_bind.mp h with h | ⟨errs, herrs, h⟩
      · exact absurd h (append_emitted _ _ _ ▸ List.not_mem_nil)
      · exact .inr ⟨errs, herrs, hlast.mp h⟩
  · intro ⟨inst, wanted, s, out, h, hout, hcall⟩
    refine ⟨inst, h.stage0, wanted, h.run, Option.map_eq_none_iff.mpr h.nil, s, h.stage1, out,
      hout, Proc.mem_bind.mpr ?_⟩
    rcases hcall with rfl | ⟨errs, herrs, hcall⟩
    · exact .inl (List.mem_singleton.mpr rfl)
    · exact .inr ⟨(), rfl, Proc.mem_bind.mpr (.inr ⟨errs, herrs, hlast.mpr hcall⟩)⟩

end Spec

/-! ## The calls of the database loop -/

section Calls
variable {p : Plan} {dbs : DBMap}

/-- What is known of a call to `Sync`: it works on managed databases, on what
`Inspect` returned. -/
structure SyncCall.Made (p : Plan) (sc : SyncCall) : Prop where
  surveyed : Surveyed p.server p.roles sc.dbs
  managed : sc.dbname ∈ sc.dbs.map
  queries : ∃ o current,
    inspect p.reg sc.dbs (databaseOf sc.dbs sc.dbname) sc.acl p.roles
      (p.server.grants sc.dbname sc.acl) = .ok current ∧
    sync p.reg sc.dbs o sc.dbname current (p.wanted[sc.acl]?.getD []) = .ok sc.queries

/-- The call is made to `Sync`. -/
def IsSync (p : Plan) (call : Call) : Prop := ∃ sc, call = .sync sc ∧ sc.Made p

theorem syncACL_does (o : Order) (hdbs : Surveyed p.server p.roles dbs) {dbname : String}
    (hin : dbname ∈ dbs.map) (errs : List String) (ai : String × Nat) :
    Proc.Does (IsSync p) (fun _ => True) (syncACL p o dbs dbname errs ai) := by
  unfold syncACL
  split
  · exact .pure trivial
  case h_2 current hinspect =>
    refine (Proc.Does.lift fun _ h => h).bind fun queries hsync => ?_
    refine (Proc.Does.emit (fun call hcall => ?_) trivial).bind fun _ (_ : True) => .pure trivial
    exact ⟨_, List.mem_singleton.mp hcall, hdbs, hin, _, current, hinspect, hsync⟩

theorem syncPrivileges_does (o : Order) (hdbs : Surveyed p.server p.roles dbs) {dbname : String}
    (hin : dbname ∈ dbs.map) (acls : List String) :
    Proc.Does (IsSync p) (fun _ => True) (syncPrivileges p o dbs dbname acls) :=
  .foldlM (fun errs ai _ _ => syncACL_does o hdbs hin errs ai) trivial

theorem append_does {P : Call → Prop} (stage : String) (errs new : List String) :
    Proc.Does P (fun _ => True) (append stage errs new) :=
  ⟨fun _ h => absurd h (append_emitted stage errs new ▸ List.not_mem_nil), fun _ _ => trivial⟩

/-- What the loop over databases keeps: the databases are surveyed, and they are
those it started with. -/
def Kept (p : Plan) (dbs : DBMap) (st : DBMap × List String) : Prop :=
  Surveyed p.server p.roles st.1 ∧ ∀ k, k ∈ st.1.map ↔ k ∈ dbs.map

theorem syncDatabase_does (o : Order) (acls : List String × List String × List String)
    {st : DBMap × List String} (hst : Kept p dbs st) {di : String × Nat} (hin : di.1 ∈ dbs.map) :
    Proc.Does (IsSync p) (Kept p dbs) (syncDatabase p o acls st di) := by
  refine (Proc.Does.lift fun _ h => h).bind fun dbs₂ h₂ => ?_
  have hs₂ : Surveyed p.server p.roles dbs₂ := hst.1.stage2 h₂
  have hk₂ : ∀ k, k ∈ dbs₂.map ↔ k ∈ dbs.map := fun k => (stage2_mem h₂ k).trans (hst.2 k)
  refine (syncPrivileges_does _ hs₂ ((hk₂ di.1).mpr hin) _).bind fun new _ => ?_
  refine (append_does "stage 2: " st.2 new).bind fun errs _ => ?_
  split
  · exact .pure ⟨hs₂, hk₂⟩
  · refine (Proc.Does.lift fun _ h => h).bind fun dbs₃ h₃ => ?_
    have hs₃ : Surveyed p.server p.roles dbs₃ := hs₂.stage3 h₃
    have hk₃ : ∀ k, k ∈ dbs₃.map ↔ k ∈ dbs.map := fun k => (stage3_mem h₃ k).trans (hk₂ k)
    refine (syncPrivileges_does _ hs₃ ((hk₃ di.1).mpr hin) _).bind fun new _ => ?_
    exact (append_does "stage 3: " errs new).bind fun _ _ => .pure ⟨hs₃, hk₃⟩

/-- Every call of the database loop is made to `Sync`, on managed databases. -/
theorem syncDatabases_does (o : Order) (hdbs : Surveyed p.server p.roles dbs) (errs : List String) :
    Proc.Does (IsSync p) (Kept p dbs) (syncDatabases p o dbs errs) := by
  refine .foldlM (fun st di hdi hst => syncDatabase_does _ _ hst ?_) ⟨hdbs, fun _ => Iff.rfl⟩
  exact mem_syncOrder.mp (List.fst_mem_of_mem_zipIdx hdi)

/-- What reaches the server in the privilege stage. -/
theorem Prepared.isSync {c : Conf} {o : Order} {server : Server} {s : Stage1}
    (h : Prepared c o server inst wanted s) {out : List Roles.Query × DBMap}
    (hout : Cmd.roleStage (o.sub 1) inst s wanted.roles = .ok out) {errs : List String}
    {call : Call}
    (hcall : call ∈ (privilegeStage c (o.sub 2) server inst s wanted out.2 errs).emitted) :
    IsSync ⟨c.reg, server, effectiveRoles wanted.roles s, wanted.grants, inst.defaultDatabase⟩
      call := by
  obtain ⟨out', hout', _, hdbs⟩ := h.roleStage
  cases hout.symm.trans hout'
  have hsurveyed : Surveyed server (effectiveRoles wanted.roles s) out.2 := by
    rw [hdbs]
    exact drops_databases _ _ (fun m dbname owner hm => hm.setOwner dbname owner)
      ((stage1_spec h.stage1).surveyed _)
  unfold privilegeStage at hcall
  split at hcall
  · exact (syncDatabases_does _ hsurveyed errs).emits call hcall
  · cases hcall

end Calls

end Ldap2pg.Cmd
