import Ldap2pg.Cmd
import Ldap2pg.Privileges.Converge

/-! # Each wanted grant is handled once

The placeholders of a grant are replaced in each call to `Sync`, one call for a
database and an ACL. Over the calls of a loop that comes to its end, the
expansions of a grant are its `Target`s, each of them once: the other databases
leave a grant of this one alone, and ACLs of the instance are left to the default
database. -/
namespace Ldap2pg.Cmd.Once
open Lib Postgres Privileges Inspect
open Privileges.Converge (Generated)

variable {acls : List String × List String × List String} {acl : String}

variable {p : Plan} {o : Order} {dbs final : DBMap} {dbname : String} {errs : List String}

/-- The database, the ACL and the databases of a call. -/
def site (sc : SyncCall) : String × String × DBMap := (sc.dbname, sc.acl, sc.dbs)

/-- The inspection queries of managed ACLs return rows that can be scanned. -/
def Answers (p : Plan) (dbs : DBMap) : Prop :=
  ∀ d ∈ dbs.map, ∀ acl ∈ p.reg.managedACLs, ∃ rows, p.server.grants d acl = .ok rows ∧
    ∀ row ∈ rows, ∃ g, (p.reg.acl acl).rowTo row = .ok g

/-! ## The calls of a database -/

theorem databaseOf_name (hin : dbname ∈ dbs.map) : (databaseOf dbs dbname).name = dbname := by
  obtain ⟨d, hd⟩ := Dict.mem_iff.mp hin
  rw [databaseOf, hd]
  exact dbs.key dbname d hd

theorem syncACL_calls (hin : dbname ∈ dbs.map) {ai : String × Nat}
    (hrows : ∃ rows, p.server.grants dbname ai.1 = .ok rows ∧
      ∀ row ∈ rows, ∃ g, (p.reg.acl ai.1).rowTo row = .ok g) (errs : List String) :
    ∃ queries errs', syncACL p o dbs dbname errs ai =
      ⟨[.sync ⟨dbname, ai.1, dbs, queries⟩], .ok errs'⟩ := by
  obtain ⟨rows, hrows, hscan⟩ := hrows
  obtain ⟨grants, hgrants⟩ := exists_mapM_ok hscan
  obtain ⟨expanded, hexpand⟩ := expand_ok p.reg (o.sub ai.2) (p.wanted[ai.1]?.getD [])
    ((databaseOf_name hin).symm ▸ hin : (databaseOf dbs dbname).name ∈ dbs.map)
  unfold syncACL
  rw [show inspect p.reg dbs (databaseOf dbs dbname) ai.1 p.roles (p.server.grants dbname ai.1) =
    .ok _ by rw [hrows]; exact bind_eq_ok.mpr ⟨rows, rfl, bind_eq_ok.mpr ⟨grants, hgrants, rfl⟩⟩]
  simp only
  rw [show ∀ current, sync p.reg dbs (o.sub ai.2) dbname current (p.wanted[ai.1]?.getD []) =
    .ok (diff current expanded) from fun _ => bind_eq_ok.mpr ⟨expanded, hexpand, rfl⟩]
  exact ⟨_, _, rfl⟩

theorem syncPrivileges_calls (hin : dbname ∈ dbs.map) {acls : List String}
    (hrows : ∀ acl ∈ acls, ∃ rows, p.server.grants dbname acl = .ok rows ∧
      ∀ row ∈ rows, ∃ g, (p.reg.acl acl).rowTo row = .ok g) :
    ∃ (calls : List SyncCall) (errs' : List String),
      syncPrivileges p o dbs dbname acls = ⟨calls.map .sync, .ok errs'⟩ ∧
      calls.map site = acls.map fun acl => (dbname, acl, dbs) := by
  have hloop : ∀ (l : List (String × Nat)), (∀ ai ∈ l, ai.1 ∈ acls) → ∀ errs,
      ∃ (calls : List SyncCall) (errs' : List String),
      l.foldlM (syncACL p o dbs dbname) errs = ⟨calls.map .sync, .ok errs'⟩ ∧
        calls.map site = l.map fun ai => (dbname, ai.1, dbs) := by
    intro l
    induction l with
    | nil => intro _ errs; exact ⟨[], errs, rfl, rfl⟩
    | cons ai l ih =>
      intro hl errs
      obtain ⟨queries, errs₁, hturn⟩ := syncACL_calls (o := o) hin
        (hrows ai.1 (hl ai List.mem_cons_self)) errs
      obtain ⟨calls, errs', hrest, hsites⟩ := ih (fun b hb => hl b (List.mem_cons_of_mem ai hb)) errs₁
      refine ⟨⟨dbname, ai.1, dbs, queries⟩ :: calls, errs', ?_, ?_⟩
      · rw [List.foldlM_cons, hturn]
        show (⟨[_] ++ (l.foldlM (syncACL p o dbs dbname) errs₁).emitted,
          (l.foldlM (syncACL p o dbs dbname) errs₁).result⟩ : Main (List String)) = _
        rw [hrest]
        rfl
      · rw [List.map_cons, List.map_cons, hsites]
        rfl
  obtain ⟨calls, errs', hcalls, hsites⟩ := hloop acls.zipIdx
    (fun ai hai => List.fst_mem_of_mem_zipIdx hai) []
  refine ⟨calls, errs', hcalls, hsites.trans ?_⟩
  rw [show (acls.zipIdx.map fun ai => (dbname, ai.1, dbs)) =
    (acls.zipIdx.map Prod.fst).map fun acl => (dbname, acl, dbs) by rw [List.map_map]; rfl,
    List.zipIdx_map_fst]

/-- The ACLs of a database that do not depend on owners. -/
def stageACLs (p : Plan) (acls : List String × List String × List String) (d : String) :
    List String :=
  (if d = p.defaultDatabase then acls.1 else []) ++ acls.2.1

/-- A database with the databases as its first calls find them, and its last ones. -/
structure Visit where
  name : String
  dbs₂ : DBMap
  dbs₃ : DBMap

def Visit.sites (p : Plan) (acls : List String × List String × List String) (v : Visit) :
    List (String × String × DBMap) :=
  (stageACLs p acls v.name).map (fun acl => (v.name, acl, v.dbs₂)) ++
    acls.2.2.map fun acl => (v.name, acl, v.dbs₃)

/-- Stage 2 and stage 3 of the database. -/
structure Visit.Of (p : Plan) (acls : List String × List String × List String) (dbs : DBMap)
    (v : Visit) : Prop where
  stage2 : stage2 p.server v.name dbs = .ok v.dbs₂
  stage3 : (acls.2.2 = [] ∧ v.dbs₃ = v.dbs₂) ∨ stage3 p.server v.name p.roles v.dbs₂ = .ok v.dbs₃

theorem Visit.Of.mem {v : Visit} (h : v.Of p acls dbs) :
    (∀ k, k ∈ v.dbs₂.map ↔ k ∈ dbs.map) ∧ ∀ k, k ∈ v.dbs₃.map ↔ k ∈ dbs.map := by
  have h₂ := stage2_mem h.stage2
  refine ⟨h₂, fun k => ?_⟩
  rcases h.stage3 with ⟨_, he⟩ | h₃
  · rw [he]
    exact h₂ k
  · exact (stage3_mem h₃ k).trans (h₂ k)

/-- What a turn of the loop over databases emits, if the loop goes on. -/
theorem syncDatabase_calls {st st' : DBMap × List String} {di : String × Nat}
    (hin : di.1 ∈ st.1.map)
    (hrows : ∀ acl, acl ∈ acls.1 ∨ acl ∈ acls.2.1 ∨ acl ∈ acls.2.2 → ∃ rows, p.server.grants di.1
    acl = .ok rows ∧ ∀ row ∈ rows, ∃ g, (p.reg.acl acl).rowTo row = .ok g)
    (h : (syncDatabase p o acls st di).result = .ok st') :
    ∃ (v : Visit) (calls : List SyncCall), v.name = di.1 ∧ v.Of p acls st.1 ∧ st'.1 = v.dbs₃ ∧
      (syncDatabase p o acls st di).emitted = calls.map .sync ∧ calls.map site = v.sites p acls := by
  unfold syncDatabase at h ⊢
  obtain ⟨dbs₂, h₂, h⟩ := Proc.result_bind.mp h
  rw [Proc.emitted_bind h₂]
  rw [Proc.lift_result] at h₂
  have hin₂ : di.1 ∈ dbs₂.map := (stage2_mem h₂ di.1).mpr hin
  have hstage : ∀ acl ∈ stageACLs p acls di.1, acl ∈ acls.1 ∨ acl ∈ acls.2.1 ∨ acl ∈ acls.2.2 := by
    intro acl hacl
    rcases List.mem_append.mp hacl with hacl | hacl
    · split at hacl
      · exact .inl hacl
      · cases hacl
    · exact .inr (.inl hacl)
  obtain ⟨calls, new, hcalls, hsites⟩ := syncPrivileges_calls (p := p) (o := (o.sub di.2).sub 0)
    hin₂ fun acl hacl => hrows acl (hstage acl hacl)
  obtain ⟨new', hnew, h⟩ := Proc.result_bind.mp h
  rw [Proc.emitted_bind hnew]
  obtain ⟨errs₂, herrs₂, h⟩ := Proc.result_bind.mp h
  rw [Proc.emitted_bind herrs₂, append_emitted]
  have hemitted : (syncPrivileges p ((o.sub di.2).sub 0) dbs₂ di.1
      ((if di.1 = p.defaultDatabase then acls.1 else []) ++ acls.2.1)).emitted = calls.map .sync :=
    congrArg Proc.emitted hcalls
  rw [hemitted]
  by_cases hnil : acls.2.2 = []
  · rw [if_pos hnil] at h ⊢
    cases h
    refine ⟨⟨di.1, dbs₂, dbs₂⟩, calls, rfl, ⟨h₂, .inl ⟨hnil, rfl⟩⟩, rfl, ?_, ?_⟩
    · show [] ++ (calls.map _ ++ ([] ++ [])) = _
      simp
    · rw [hsites, Visit.sites, hnil]
      simp
  · rw [if_neg hnil] at h ⊢
    obtain ⟨dbs₃, h₃, h⟩ := Proc.result_bind.mp h
    rw [Proc.emitted_bind h₃]
    rw [Proc.lift_result] at h₃
    have hin₃ : di.1 ∈ dbs₃.map := (stage3_mem h₃ di.1).mpr hin₂
    obtain ⟨calls₃, new₃, hcalls₃, hsites₃⟩ := syncPrivileges_calls (p := p)
      (o := (o.sub di.2).sub 1) hin₃ fun acl (hacl : acl ∈ acls.2.2) => hrows acl (.inr (.inr hacl))
    obtain ⟨new₃', hnew₃, h⟩ := Proc.result_bind.mp h
    rw [Proc.emitted_bind hnew₃, hcalls₃]
    obtain ⟨errs₃, herrs₃, h⟩ := Proc.result_bind.mp h
    rw [Proc.emitted_bind herrs₃, append_emitted]
    cases h
    refine ⟨⟨di.1, dbs₂, dbs₃⟩, calls ++ calls₃, rfl, ⟨h₂, .inr h₃⟩, rfl, ?_, ?_⟩
    · show [] ++ (calls.map _ ++ ([] ++ ([] ++ (calls₃.map _ ++ ([] ++ []))))) = _
      simp
    · rw [List.map_append, hsites, hsites₃]
      rfl

/-! ## The calls of the whole loop -/

/-- What the calls of a visit know of their database is what the loop ends with;
the first calls do not know the creators yet. -/
structure Visit.Agrees (final : DBMap) (v : Visit) : Prop where
  last : v.dbs₃.map[v.name]? = final.map[v.name]?
  schemas : ∀ s, s ∈ (databaseOf v.dbs₂ v.name).schemas ↔ s ∈ (databaseOf final v.name).schemas
  mem₂ : ∀ k, k ∈ v.dbs₂.map ↔ k ∈ final.map
  mem₃ : ∀ k, k ∈ v.dbs₃.map ↔ k ∈ final.map

theorem Visit.Of.frame {v : Visit} (h : v.Of p acls dbs) {k : String} (hne : k ≠ v.name) :
    v.dbs₃.map[k]? = dbs.map[k]? := by
  rcases h.stage3 with ⟨_, he⟩ | h₃
  · rw [he]
    exact stage2_frame h.stage2 hne
  · rw [(stage3_frame h₃).1 k hne]
    exact stage2_frame h.stage2 hne

theorem Visit.Of.schemas {v : Visit} (h : v.Of p acls dbs) (s : String) :
    s ∈ (databaseOf v.dbs₃ v.name).schemas ↔ s ∈ (databaseOf v.dbs₂ v.name).schemas := by
  rcases h.stage3 with ⟨_, he⟩ | h₃
  · rw [he]
  · exact (stage3_frame h₃).2 s

theorem loop_calls {l : List (String × Nat)} {st st' : DBMap × List String} {out : List Call}
    (h : Proc.Loop (syncDatabase p o acls) st l out st') (hnodup : (l.map Prod.fst).Nodup)
    (hin : ∀ di ∈ l, di.1 ∈ st.1.map)
    (hrows : ∀ di ∈ l, ∀ acl, acl ∈ acls.1 ∨ acl ∈ acls.2.1 ∨ acl ∈ acls.2.2 → ∃ rows,
    p.server.grants di.1 acl = .ok rows ∧ ∀ row ∈ rows, ∃ g, (p.reg.acl acl).rowTo row = .ok g) :
    (∃ (visits : List Visit) (calls : List SyncCall), out = calls.map .sync ∧
      calls.map site = visits.flatMap (Visit.sites p acls) ∧
      visits.map Visit.name = l.map Prod.fst ∧ ∀ v ∈ visits, v.Agrees st'.1) ∧
    (∀ k, k ∈ st'.1.map ↔ k ∈ st.1.map) ∧
    ∀ k, k ∉ l.map Prod.fst → st'.1.map[k]? = st.1.map[k]? := by
  induction h with
  | nil s => exact ⟨⟨[], [], rfl, rfl, rfl, nofun⟩, fun _ => Iff.rfl, fun _ _ => rfl⟩
  | @cons s s₁ s₂ di l out hturn hrest ih =>
    rw [List.map_cons, List.nodup_cons] at hnodup
    obtain ⟨hnot, hnodup⟩ := hnodup
    obtain ⟨v, calls₁, hname, hof, hs₁, hemitted, hsites₁⟩ := syncDatabase_calls
      (hin di List.mem_cons_self) (hrows di List.mem_cons_self) hturn
    have hmem₁ : ∀ k, k ∈ s₁.1.map ↔ k ∈ s.1.map := by
      rw [hs₁]
      exact hof.mem.2
    obtain ⟨⟨visits, calls, hout, hsites, hnames, hagrees⟩, hmem, hframe⟩ := ih hnodup
      (fun d hd => (hmem₁ d.1).mpr (hin d (List.mem_cons_of_mem di hd)))
      fun d hd => hrows d (List.mem_cons_of_mem di hd)
    -- the turns that follow do not come back to this database
    have hlast : v.dbs₃.map[v.name]? = s₂.1.map[v.name]? := by
      rw [hframe v.name (hname ▸ hnot), hs₁]
    refine ⟨⟨v :: visits, calls₁ ++ calls, ?_, ?_, ?_, ?_⟩, fun k => (hmem k).trans (hmem₁ k), ?_⟩
    · rw [hemitted, hout, List.map_append]
    · rw [List.map_append, hsites₁, hsites, List.flatMap_cons]
    · rw [List.map_cons, List.map_cons, hname, hnames]
    · intro v' hv'
      rcases List.mem_cons.mp hv' with rfl | hv'
      · refine ⟨hlast, fun name => ?_, fun k => ?_, fun k => ?_⟩
        · rw [← hof.schemas, databaseOf, databaseOf, hlast]
        · rw [hmem, hmem₁]
          exact hof.mem.1 k
        · rw [hmem, hs₁]
      · exact hagrees v' hv'
    · intro k hk
      rw [List.map_cons, List.mem_cons, not_or] at hk
      rw [hframe k hk.2, hs₁]
      exact hof.frame (hname ▸ hk.1)

/-! ## The calls of an ACL -/

/-- The databases as the calls of an ACL find them. -/
def Visit.found (reg : Registry) (acl : String) (v : Visit) : DBMap :=
  if (reg.acl acl).uses "owner" then v.dbs₃ else v.dbs₂

/-- The ACL is left to the default database. -/
def defaultOnly (reg : Registry) (acl : String) : Bool :=
  !(reg.acl acl).uses "owner" && (reg.acl acl).scope == "instance"

theorem filter_filter_eq {names : List String} (hn : names.Nodup) (P : String → Bool) (a : String) :
    (names.filter P).filter (fun n => n = a) = if a ∈ names ∧ P a = true then [a] else [] := by
  induction names with
  | nil => simp
  | cons n names ih =>
    obtain ⟨hnot, hn⟩ := List.nodup_cons.mp hn
    by_cases he : n = a
    · subst he
      by_cases hP : P n = true <;> simp [hP, ih hn, hnot]
    · by_cases hP : P n = true <;> simp [hP, he, Ne.symm he, ih hn]

/-- Among the calls of a database, an ACL has one, or none if it is left to the
default database. -/
theorem sites_filter (p : Plan) (o : Order) (v : Visit) (hacl : acl ∈ p.reg.managedACLs) :
    (v.sites p (splitManagedACLs p.reg o)).filter (fun s => s.2.1 = acl) =
      if defaultOnly p.reg acl = true → v.name = p.defaultDatabase
      then [(v.name, acl, v.found p.reg acl)] else [] := by
  have hn : (o.range p.reg.managedACLs.keys).Nodup := Order.range_nodup Std.ExtTreeMap.nodup_keys
  have hin : acl ∈ o.range p.reg.managedACLs.keys :=
    Order.mem_range.mpr (Std.ExtTreeMap.mem_keys.mpr hacl)
  have hmap : ∀ (l : List String) (dbs : DBMap),
      (l.map fun a => (v.name, a, dbs)).filter (fun s => s.2.1 = acl) =
        (l.filter fun n => n = acl).map fun a => (v.name, a, dbs) := by
    intro l dbs
    rw [List.filter_map]
    rfl
  have hdefault : ∀ P : String → Bool, ((if v.name = p.defaultDatabase
      then (o.range p.reg.managedACLs.keys).filter P else []).filter fun n => n = acl) =
        if v.name = p.defaultDatabase ∧ P acl = true then [acl] else [] := by
    intro P
    by_cases hd : v.name = p.defaultDatabase
    · simp [hd, filter_filter_eq hn, hin]
    · simp [hd]
  rw [Visit.sites, List.filter_append, hmap, hmap, stageACLs, List.filter_append]
  simp only [splitManagedACLs, Visit.found, defaultOnly, filter_filter_eq hn, hin, true_and, hdefault]
  by_cases howner : (p.reg.acl acl).uses "owner" = true
  · simp [howner]
  · by_cases hscope : (p.reg.acl acl).scope = "instance"
    · by_cases hd : v.name = p.defaultDatabase <;> simp [howner, hscope, hd]
    · simp [howner, hscope]

/-- The visits whose calls have the ACL. -/
def picked (p : Plan) (acl : String) (visits : List Visit) : List Visit :=
  visits.filter fun v => !defaultOnly p.reg acl || v.name == p.defaultDatabase

theorem mem_picked {visits : List Visit} {v : Visit} :
    v ∈ picked p acl visits ↔
      v ∈ visits ∧ (defaultOnly p.reg acl = true → v.name = p.defaultDatabase) := by
  rw [picked, List.mem_filter, Bool.or_eq_true, Bool.not_eq_true', beq_iff_eq,
    ← Bool.not_eq_true, ← imp_iff_not_or]

theorem sites_of_acl {visits : List Visit} {calls : List SyncCall} (hacl : acl ∈ p.reg.managedACLs)
    (h : calls.map site = visits.flatMap (Visit.sites p (splitManagedACLs p.reg o))) :
    (calls.filter fun sc => sc.acl = acl).map site =
      (picked p acl visits).map fun v => (v.name, acl, v.found p.reg acl) := by
  have hfilter : (calls.filter fun sc => sc.acl = acl).map site =
      (calls.map site).filter fun s => s.2.1 = acl := by
    rw [List.filter_map]
    rfl
  rw [hfilter, h]
  clear h hfilter
  induction visits with
  | nil => rfl
  | cons v visits ih =>
    rw [List.flatMap_cons, List.filter_append, sites_filter p o v hacl, ih]
    unfold picked
    rw [List.filter_cons]
    by_cases hpick : defaultOnly p.reg acl = true → v.name = p.defaultDatabase
    · rw [if_pos hpick, if_pos (by simpa [imp_iff_not_or] using hpick)]
      rfl
    · rw [if_neg hpick, if_neg (by simpa [imp_iff_not_or] using hpick)]
      rfl

/-! ## Targets -/

/-- The database that synchronises a grant on `database`. -/
def syncedIn (p : Plan) (g : Grant) (database : String) : String :=
  if p.reg.instanceWide g then p.defaultDatabase else database

/-- One of the targets of the wanted grant `g`, among the databases as they are
inspected. -/
structure Target (p : Plan) (dbs : DBMap) (g e : Grant) : Prop where
  same : e = { g with owner := e.owner, database := e.database, schema := e.schema }
  database : if g.database = "__all__" then e.database ∈ dbs.map
    else e.database = g.database ∧ (p.reg.instanceWide g = false → g.database ∈ dbs.map)
  schema : if g.schema = "__all__"
    then e.schema ∈ (databaseOf dbs (syncedIn p g e.database)).schemas else e.schema = g.schema
  owner : if g.owner = "__auto__" then e.owner ∈ creators (databaseOf dbs e.database) e.schema
    else e.owner = g.owner

/-- A grant of a rule has an owner only under an ACL that uses it. -/
theorem owner_of_generated {reg : Registry} {g : Grant} (h : Generated reg g)
    (hu : (reg.acl g.acl).uses "owner" = false) : g.owner = "" := by
  obtain ⟨_, _, _, _, _, _, priv, _, hgrant⟩ := Converge.generated_grant h
  obtain ⟨hacl, _, hfields⟩ := Converge.grant_fields hgrant
  exact hfields.owner (hacl ▸ hu)

section Targets
variable {v : Visit} {g e : Grant} {visits : List Visit}

theorem Visit.Agrees.found (h : v.Agrees final) (acl : String) :
    (∀ k, k ∈ (v.found p.reg acl).map ↔ k ∈ final.map) ∧
      (∀ s, s ∈ (databaseOf (v.found p.reg acl) v.name).schemas ↔
        s ∈ (databaseOf final v.name).schemas) ∧
      ((p.reg.acl acl).uses "owner" = true →
        databaseOf (v.found p.reg acl) v.name = databaseOf final v.name) := by
  have hlast : databaseOf v.dbs₃ v.name = databaseOf final v.name := by
    rw [databaseOf, databaseOf, h.last]
  unfold Visit.found
  split
  · exact ⟨h.mem₃, fun s => by rw [hlast], fun _ => hlast⟩
  · exact ⟨h.mem₂, h.schemas, fun hu => absurd hu ‹_›⟩

theorem Target.syncedIn_mem (ht : Target p final g e) (hdefault : p.defaultDatabase ∈ final.map) :
    syncedIn p g e.database ∈ final.map := by
  unfold syncedIn
  split
  · exact hdefault
  · rename_i hw
    have hdb := ht.database
    split at hdb
    · exact hdb
    · rw [hdb.1]
      exact hdb.2 (by simpa using hw)

variable (hreg : ∀ acl, (p.reg.acl acl).scope = "instance" → (p.reg.acl acl).uses "owner" = false)
include hreg

theorem defaultOnly_eq (g : Grant) : defaultOnly p.reg g.acl = p.reg.instanceWide g := by
  unfold defaultOnly Registry.instanceWide
  by_cases hscope : (p.reg.acl g.acl).scope = "instance"
  · simp [hscope, hreg g.acl hscope]
  · simp [hscope]

/-- Creators are for the ACLs of a database, in the stage that knows them. -/
theorem uses_of_auto (hg : Generated p.reg g) (ho : g.owner = "__auto__") :
    (p.reg.acl g.acl).uses "owner" = true ∧ p.reg.instanceWide g = false := by
  have hu : (p.reg.acl g.acl).uses "owner" = true := by
    by_contra hu
    rw [owner_of_generated hg (by simpa using hu)] at ho
    exact absurd ho (by decide)
  refine ⟨hu, ?_⟩
  by_contra hw
  have hscope : (p.reg.acl g.acl).scope = "instance" := by
    simpa [Registry.instanceWide] using hw
  rw [hreg g.acl hscope] at hu
  cases hu

theorem target_of_expands (hagrees : v.Agrees final) (hin : v.name ∈ final.map)
    (hpick : defaultOnly p.reg g.acl = true → v.name = p.defaultDatabase) (hg : Generated p.reg g)
    (hx : Expands p.reg (v.found p.reg g.acl) (databaseOf (v.found p.reg g.acl) v.name) g e) :
    Target p final g e := by
  obtain ⟨hmem, hschemas, hcreators⟩ := hagrees.found (p := p) g.acl
  have hD := databaseOf_name ((hmem v.name).mpr hin)
  have hlocal : p.reg.instanceWide g = false → e.database = v.name := fun hw =>
    (hx.database_eq hw).trans hD
  have hsynced : syncedIn p g e.database = v.name := by
    unfold syncedIn
    split
    · rename_i hw
      exact (hpick ((defaultOnly_eq hreg g).trans hw)).symm
    · rename_i hw
      exact hlocal (by simpa using hw)
  refine ⟨hx.same, ?_, ?_, ?_⟩
  · have hdb := hx.inDatabase
    split at hdb
    · rename_i hall
      rw [if_pos hall]
      exact (hmem _).mp hdb.1
    · rename_i hall
      rw [if_neg hall]
      exact ⟨hdb.2, fun hw => hdb.2 ▸ (hlocal hw).symm ▸ hin⟩
  · have hschema := hx.inSchema
    rw [hsynced]
    split at hschema
    · rename_i hall
      rw [if_pos hall]
      exact (hschemas _).mp hschema
    · rename_i hall
      rw [if_neg hall]
      exact hschema
  · have howner := hx.byOwner
    split at howner
    · rename_i ho
      obtain ⟨hu, hw⟩ := uses_of_auto hreg hg ho
      rw [if_pos ho, hlocal hw, ← hcreators hu]
      exact howner.2
    · rename_i ho
      rw [if_neg ho]
      exact howner

theorem expands_of_target (hagrees : v.Agrees final) (hin : v.name ∈ final.map)
    (hname : v.name = syncedIn p g e.database) (hg : Generated p.reg g)
    (ht : Target p final g e) :
    Expands p.reg (v.found p.reg g.acl) (databaseOf (v.found p.reg g.acl) v.name) g e := by
  have hlocal : p.reg.instanceWide g = false → syncedIn p g e.database = e.database := by
    intro hw
    rw [syncedIn, hw]
    exact if_neg Bool.false_ne_true
  obtain ⟨hmem, hschemas, hcreators⟩ := hagrees.found (p := p) g.acl
  have hD : (databaseOf (v.found p.reg g.acl) v.name).name = v.name :=
    databaseOf_name ((hmem v.name).mpr hin)
  refine ⟨ht.same, ?_, ?_, ?_⟩
  · have hhere : e.database = v.name ∨ p.reg.instanceWide g = true := by
      by_cases hw : p.reg.instanceWide g = true
      · exact .inr hw
      · exact .inl ((hlocal (by simpa using hw)).symm.trans hname.symm)
    have hdb := ht.database
    rw [hD]
    split at hdb
    · rename_i hall
      rw [if_pos hall]
      exact ⟨(hmem _).mpr hdb, hhere⟩
    · rename_i hall
      rw [if_neg hall]
      exact ⟨hhere.symm.imp_right fun h => hdb.1.symm.trans h, hdb.1⟩
  · have hschema := ht.schema
    rw [← hname] at hschema
    split at hschema
    · rename_i hall
      rw [if_pos hall]
      exact (hschemas _).mpr hschema
    · rename_i hall
      rw [if_neg hall]
      exact hschema
  · have howner := ht.owner
    split at howner
    · rename_i ho
      obtain ⟨hu, hw⟩ := uses_of_auto hreg hg ho
      rw [if_pos ho, hD, hcreators hu, hname, hlocal hw]
      exact ⟨rfl, howner⟩
    · rename_i ho
      rw [if_neg ho]
      exact howner

/-- The calls of a wanted grant expand it to its targets. -/
theorem expands_iff_target (hagrees : ∀ v ∈ visits, v.Agrees final)
    (hnames : ∀ d, d ∈ visits.map Visit.name ↔ d ∈ final.map)
    (hdefault : p.defaultDatabase ∈ final.map) (hg : Generated p.reg g) :
    (∃ v ∈ picked p g.acl visits, Expands p.reg (v.found p.reg g.acl)
      (databaseOf (v.found p.reg g.acl) v.name) g e) ↔ Target p final g e := by
  refine ⟨fun ⟨v, hv, hx⟩ => ?_, fun ht => ?_⟩
  · obtain ⟨hin, hpick⟩ := mem_picked.mp hv
    exact target_of_expands hreg (hagrees v hin) ((hnames v.name).mp (List.mem_map_of_mem hin))
      hpick hg hx
  · obtain ⟨v, hv, hname⟩ := List.mem_map.mp ((hnames _).mpr (ht.syncedIn_mem hdefault))
    refine ⟨v, mem_picked.mpr ⟨hv, fun hw => ?_⟩, ?_⟩
    · rw [hname, syncedIn, if_pos ((defaultOnly_eq hreg g).symm.trans hw)]
    · exact expands_of_target hreg (hagrees v hv) (hname ▸ ht.syncedIn_mem hdefault) hname hg ht

end Targets

/-! ## The calls of any run

A run that is cut short, or that skips an ACL it could not inspect, makes some of
the calls below, in this order, and none twice. -/

/-- A call to `Sync`: the wanted grants of its ACL are expanded, one list for each of
them, and its queries are what `Diff` makes of them and of the inspected grants. -/
structure Handled (p : Plan) where
  call : SyncCall
  parts : List (List Grant)
  managed : call.dbname ∈ call.dbs.map
  expand : ∃ o, expand p.reg call.dbs o (p.wanted[call.acl]?.getD [])
    (databaseOf call.dbs call.dbname) = .ok parts.flatten
  each : Parts p.reg call.dbs (databaseOf call.dbs call.dbname) (p.wanted[call.acl]?.getD []) parts
  queries : ∃ current, inspect p.reg call.dbs (databaseOf call.dbs call.dbname) call.acl p.roles
    (p.server.grants call.dbname call.acl) = .ok current ∧ call.queries = diff current parts.flatten

/-- The call is made for the database and the ACL. -/
def Called (p : Plan) (call : Call) (place : String × String) : Prop :=
  ∃ h : Handled p, call = .sync h.call ∧ (h.call.dbname, h.call.acl) = place

def NoPanic : Stop → Prop
  | .panic _ => False
  | .error _ => True

theorem syncACL_within (hin : dbname ∈ dbs.map) (errs : List String) (ai : String × Nat) :
    Proc.Within (Called p) NoPanic [(dbname, ai.1)] (syncACL p o dbs dbname errs ai) := by
  unfold syncACL
  split
  · exact Proc.Within.pure.weaken (List.nil_sublist _)
  case h_2 current hcurrent =>
    obtain ⟨expanded, hexpand⟩ := expand_ok p.reg (o.sub ai.2) (p.wanted[ai.1]?.getD [])
      ((databaseOf_name hin).symm ▸ hin : (databaseOf dbs dbname).name ∈ dbs.map)
    obtain ⟨parts, hparts, rfl⟩ := expand_parts hexpand
    have hsync : sync p.reg dbs (o.sub ai.2) dbname current (p.wanted[ai.1]?.getD []) =
        .ok (diff current parts.flatten) := bind_eq_ok.mpr ⟨_, hexpand, rfl⟩
    refine Proc.Within.bind (Proc.Within.lift fun e he => ?_) fun queries hqueries => ?_
    · rw [hsync] at he
      cases he
    · have hdiff : queries = diff current parts.flatten :=
        Except.ok.inj ((Proc.lift_result.mp hqueries).symm.trans hsync)
      exact Proc.Within.bind (.emit ⟨⟨⟨dbname, ai.1, dbs, queries⟩, parts, hin, ⟨_, hexpand⟩, hparts,
        current, hcurrent, hdiff⟩, rfl, rfl⟩) fun _ _ => .pure

theorem syncPrivileges_within (hin : dbname ∈ dbs.map) (acls : List String) :
    Proc.Within (Called p) NoPanic (acls.map fun acl => (dbname, acl))
      (syncPrivileges p o dbs dbname acls) := by
  rw [List.map_eq_flatMap]
  exact .foldlM_zipIdx (I := fun _ => True)
    (fun errs acl _ i _ => ⟨syncACL_within hin errs (acl, i), fun _ _ => trivial⟩) trivial

theorem append_within (stage : String) (errs new : List String) :
    Proc.Within (Called p) NoPanic [] (append stage errs new) := by
  refine ⟨append_emitted stage errs new ▸ .nil, fun e he => ?_⟩
  by_cases hfull : new ≠ [] ∧ 8 ≤ (errs ++ new).length
  · simp only [append, bind, Proc.guard, if_pos hfull] at he
    cases he
    trivial
  · simp only [append, bind, Proc.guard, if_neg hfull] at he
    cases he

/-- The calls a turn of the loop over databases makes. -/
def places (p : Plan) (acls : List String × List String × List String) (d : String) :
    List (String × String) :=
  (stageACLs p acls d ++ acls.2.2).map fun acl => (d, acl)

theorem syncDatabase_within (acls : List String × List String × List String)
    {st : DBMap × List String} (di : String × Nat) (hin : di.1 ∈ st.1.map) :
    Proc.Within (Called p) NoPanic (places p acls di.1) (syncDatabase p o acls st di) := by
  rw [places, List.map_append]
  refine Proc.Within.silent (.lift fun _ _ => trivial) fun dbs₂ h₂ => ?_
  have hin₂ : di.1 ∈ dbs₂.map := (stage2_mem (Proc.lift_result.mp h₂) di.1).mpr hin
  refine (syncPrivileges_within hin₂ _).bind fun new _ => ?_
  refine Proc.Within.silent (append_within "stage 2: " st.2 new) fun errs _ => ?_
  split
  · exact Proc.Within.pure.weaken (List.nil_sublist _)
  · refine Proc.Within.silent (.lift fun _ _ => trivial) fun dbs₃ h₃ => ?_
    have hin₃ : di.1 ∈ dbs₃.map := (stage3_mem (Proc.lift_result.mp h₃) di.1).mpr hin₂
    rw [← List.append_nil (acls.2.2.map _)]
    refine (syncPrivileges_within hin₃ _).bind fun new _ => ?_
    exact Proc.Within.silent (append_within "stage 3: " errs new) fun _ _ => .pure

/-- A turn keeps the names of databases. -/
theorem syncDatabase_mem {st st' : DBMap × List String} {di : String × Nat}
    (h : (syncDatabase p o acls st di).result = .ok st') (k : String) :
    k ∈ st'.1.map ↔ k ∈ st.1.map := by
  obtain ⟨dbs₂, h₂, h⟩ := Proc.result_bind.mp h
  obtain ⟨_, _, h⟩ := Proc.result_bind.mp h
  obtain ⟨_, _, h⟩ := Proc.result_bind.mp h
  have hk₂ := stage2_mem (Proc.lift_result.mp h₂) k
  split at h
  · cases h
    exact hk₂
  · obtain ⟨dbs₃, h₃, h⟩ := Proc.result_bind.mp h
    obtain ⟨_, _, h⟩ := Proc.result_bind.mp h
    obtain ⟨_, _, h⟩ := Proc.result_bind.mp h
    cases h
    exact (stage3_mem (Proc.lift_result.mp h₃) k).trans hk₂

theorem syncDatabases_within (p : Plan) (o : Order) (dbs : DBMap) (errs : List String) :
    Proc.Within (Called p) NoPanic ((syncOrder dbs.map p.defaultDatabase true).flatMap
      (places p (splitManagedACLs p.reg (o.sub 0)))) (syncDatabases p o dbs errs) := by
  refine .foldlM_zipIdx (I := fun st => ∀ k, k ∈ st.1.map ↔ k ∈ dbs.map) (fun st d hd i hst => ?_)
    fun _ => Iff.rfl
  refine ⟨syncDatabase_within _ (d, i) ((hst d).mpr (mem_syncOrder.mp hd)), fun st' hst' k => ?_⟩
  exact (syncDatabase_mem hst' k).trans (hst k)

theorem nodup_places (p : Plan) (o : Order) (d : String) :
    (places p (splitManagedACLs p.reg o) d).Nodup := by
  have hn : (o.range p.reg.managedACLs.keys).Nodup := Order.range_nodup Std.ExtTreeMap.nodup_keys
  refine List.Nodup.map (fun acl acl' he => congrArg Prod.snd he) ?_
  simp only [stageACLs, splitManagedACLs]
  refine List.nodup_append'.mpr ⟨List.nodup_append'.mpr ⟨?_, hn.filter _, ?_⟩, hn.filter _, ?_⟩
  · split
    · exact hn.filter _
    · exact List.nodup_nil
  · intro acl hacl hacl'
    split at hacl <;> simp_all
  · intro acl hacl hacl'
    split at hacl <;> simp_all

theorem default_of_mem_places {o : Order} {d : String}
    (h : (d, acl) ∈ places p (splitManagedACLs p.reg o) d) (hacl : defaultOnly p.reg acl = true) :
    d = p.defaultDatabase := by
  by_contra hd
  obtain ⟨acl, hin, he⟩ := List.mem_map.mp h
  cases he
  rw [stageACLs, if_neg hd, List.nil_append] at hin
  simp only [splitManagedACLs, List.mem_append, List.mem_filter] at hin
  simp only [defaultOnly, Bool.and_eq_true, Bool.not_eq_true', beq_iff_eq] at hacl
  simp [hacl] at hin

theorem handled_of_called {out : List Call} {l : List (String × String)}
    (h : List.Forall₂ (Called p) out l) : ∃ calls : List (Handled p),
      out = calls.map (fun h => .sync h.call) ∧
      calls.map (fun h => (h.call.dbname, h.call.acl)) = l := by
  induction h with
  | nil => exact ⟨[], rfl, rfl⟩
  | cons hcall _ ih =>
    obtain ⟨h, rfl, rfl⟩ := hcall
    obtain ⟨calls, rfl, rfl⟩ := ih
    exact ⟨h :: calls, rfl, rfl⟩

/-- The calls of a run: none is made twice, and the ACLs of the instance are left
to the default database. -/
theorem calls_of_run (p : Plan) (o : Order) (dbs : DBMap) (errs : List String) :
    ∃ calls : List (Handled p),
      (syncDatabases p o dbs errs).emitted = calls.map (fun h => .sync h.call) ∧
      (calls.map fun h => (h.call.dbname, h.call.acl)).Nodup ∧
      ∀ h ∈ calls, defaultOnly p.reg h.call.acl = true → h.call.dbname = p.defaultDatabase := by
  obtain ⟨l, hl, hsub⟩ := List.sublistForall₂_iff.mp (syncDatabases_within p o dbs errs).emits
  obtain ⟨calls, hcalls, rfl⟩ := handled_of_called hl
  refine ⟨calls, hcalls, ?_, fun h hh => ?_⟩
  · refine hsub.nodup (nodup_flatMap_of_inj (nodup_syncOrder dbs.map p.defaultDatabase true)
      (fun d _ => nodup_places p (o.sub 0) d) fun d _ d' _ place hd hd' => ?_)
    obtain ⟨_, _, rfl⟩ := List.mem_map.mp hd
    obtain ⟨_, _, he⟩ := List.mem_map.mp hd'
    exact (congrArg Prod.fst he).symm
  · obtain ⟨d, _, hd⟩ := List.mem_flatMap.mp (hsub.subset (List.mem_map_of_mem hh))
    obtain ⟨_, _, he⟩ := List.mem_map.mp hd
    cases he
    exact default_of_mem_places hd

/-! ## The result -/

/-- What the calls of an ACL make of its wanted grant of rank `i`. -/
def expansions (calls : List (Handled p)) (acl : String) (i : Nat) : List Grant :=
  (calls.filter fun h => h.call.acl = acl).flatMap fun h => h.parts[i]?.getD []

section Result
variable {g e : Grant} {calls : List (Handled p)} {i : Nat}

theorem Handled.mem {h : Handled p} (hg : (p.wanted[h.call.acl]?.getD [])[i]? = some g) :
    e ∈ h.parts[i]?.getD [] ↔
      Expands p.reg h.call.dbs (databaseOf h.call.dbs h.call.dbname) g e :=
  (h.each.get hg).2 e

theorem Handled.database {h : Handled p} (hg : (p.wanted[h.call.acl]?.getD [])[i]? = some g)
    (hw : p.reg.instanceWide g = false) (he : e ∈ h.parts[i]?.getD []) :
    e.database = h.call.dbname :=
  (((Handled.mem hg).mp he).database_eq hw).trans (databaseOf_name h.managed)

theorem mem_calls {h : Handled p} :
    h ∈ calls.filter (fun h => h.call.acl = acl) ↔ h ∈ calls ∧ h.call.acl = acl := by
  rw [List.mem_filter, decide_eq_true_eq]

variable (hreg : ∀ acl, (p.reg.acl acl).scope = "instance" → (p.reg.acl acl).uses "owner" = false)
  (hg : (p.wanted[g.acl]?.getD [])[i]? = some g)
include hreg hg

theorem nodup_expansions (hnodup : (calls.map fun h => (h.call.dbname, h.call.acl)).Nodup)
    (hcalls : ∀ h ∈ calls, defaultOnly p.reg h.call.acl = true →
      h.call.dbname = p.defaultDatabase) : (expansions calls g.acl i).Nodup := by
  refine nodup_flatMap_of_inj (hnodup.of_map.filter _) (fun h hh => ?_) fun h hh h' hh' e he he' => ?_
  · exact (h.each.get ((mem_calls.mp hh).2 ▸ hg)).1
  · obtain ⟨hin, hacl⟩ := mem_calls.mp hh
    obtain ⟨hin', hacl'⟩ := mem_calls.mp hh'
    have hname : h.call.dbname = h'.call.dbname := by
      by_cases hw : p.reg.instanceWide g = true
      · have hdefault := (defaultOnly_eq hreg g).trans hw
        rw [hcalls h hin (hacl ▸ hdefault), hcalls h' hin' (hacl' ▸ hdefault)]
      · have hw : p.reg.instanceWide g = false := by simpa using hw
        rw [← Handled.database (hacl ▸ hg) hw he, ← Handled.database (hacl' ▸ hg) hw he']
    exact List.inj_on_of_nodup_map hnodup hin hin' (by rw [hname, hacl, hacl'])

/-- The calls of a loop that comes to its end, with inspections that answer, expand a
grant to its targets. -/
theorem mem_expansions_iff (hdefault : p.defaultDatabase ∈ dbs.map)
    (hacl : g.acl ∈ p.reg.managedACLs) (hgen : Generated p.reg g) (hans : Answers p dbs)
    (hcalls : (syncDatabases p o dbs errs).emitted = calls.map fun h => .sync h.call)
    {errs' : List String} (hdone : (syncDatabases p o dbs errs).result = .ok (final, errs')) :
    e ∈ expansions calls g.acl i ↔ Target p final g e := by
  have hnames : (syncOrder dbs.map p.defaultDatabase true).zipIdx.map Prod.fst =
      syncOrder dbs.map p.defaultDatabase true := List.zipIdx_map_fst 0 _
  have hmanaged : ∀ acl, acl ∈ (splitManagedACLs p.reg (o.sub 0)).1 ∨
      acl ∈ (splitManagedACLs p.reg (o.sub 0)).2.1 ∨
      acl ∈ (splitManagedACLs p.reg (o.sub 0)).2.2 → acl ∈ p.reg.managedACLs := by
    intro acl hacl
    have hin : acl ∈ (o.sub 0).range p.reg.managedACLs.keys := by
      rcases hacl with h | h | h <;> exact (List.mem_filter.mp h).1
    exact Std.ExtTreeMap.mem_keys.mp (Order.mem_range.mp hin)
  obtain ⟨⟨visits, calls', hout, hsites, hvisits, hagrees⟩, hmem, _⟩ :=
    loop_calls (Proc.Loop.of_foldlM hdone) (by rw [hnames]; exact nodup_syncOrder dbs.map _ true)
      (fun di hdi => mem_syncOrder.mp (List.fst_mem_of_mem_zipIdx hdi))
      fun di hdi acl hacl => hans di.1 (mem_syncOrder.mp (List.fst_mem_of_mem_zipIdx hdi)) acl
        (hmanaged acl hacl)
  have hsame : calls.map Handled.call = calls' := by
    refine List.map_injective_iff.mpr (fun _ _ he => Call.sync.inj he) ?_
    rw [List.map_map]
    exact hcalls.symm.trans hout
  subst hsame
  rw [hnames] at hvisits
  have hv : ∀ d, d ∈ visits.map Visit.name ↔ d ∈ final.map := by
    intro d
    rw [hvisits, mem_syncOrder]
    exact (hmem d).symm
  rw [← expands_iff_target hreg hagrees hv ((hmem _).mpr hdefault) hgen, expansions,
    List.mem_flatMap]
  -- the calls of the ACL are the visits picked for it
  have hpick := congrArg (fun l => ∃ s ∈ l, Expands p.reg s.2.2 (databaseOf s.2.2 s.1) g e)
    (sites_of_acl hacl hsites)
  have hpick : (∃ h ∈ calls, h.call.acl = g.acl ∧
      Expands p.reg h.call.dbs (databaseOf h.call.dbs h.call.dbname) g e) ↔
      ∃ v ∈ picked p g.acl visits, Expands p.reg (v.found p.reg g.acl)
        (databaseOf (v.found p.reg g.acl) v.name) g e := by
    rw [show (∃ h ∈ calls, h.call.acl = g.acl ∧ _) ↔ ∃ sc ∈ (calls.map Handled.call).filter
      (fun sc => sc.acl = g.acl), Expands p.reg sc.dbs (databaseOf sc.dbs sc.dbname) g e by
        simp only [List.mem_filter, List.mem_map, decide_eq_true_eq, and_assoc,
          exists_exists_and_eq_and]]
    simpa only [List.mem_map, exists_exists_and_eq_and, site, eq_iff_iff] using hpick
  rw [← hpick]
  refine exists_congr fun h => ?_
  rw [mem_calls, and_assoc]
  refine and_congr_right fun _ => and_congr_right fun hacl => Handled.mem (hacl ▸ hg)

end Result

/-- **Each wanted grant is handled once for each target.** However the loop over
databases ends, it is not by the panic of `ExpandDatabase`. Each call to `Sync` expands
the wanted grants of its ACL and compares them with the inspected ones. No two calls
make the same grant of a wanted one. If the loop comes to its end and each inspection
answers, what is made of a wanted grant is its targets. -/
theorem wanted_grant_once (p : Plan) (o : Order) (dbs : DBMap) (errs : List String)
    (hreg : ∀ acl, (p.reg.acl acl).scope = "instance" → (p.reg.acl acl).uses "owner" = false)
    (hdefault : p.defaultDatabase ∈ dbs.map)
    (hfiled : ∀ (acl : String) (l : List Grant), p.wanted[acl]? = some l → ∀ g ∈ l, g.acl = acl) :
    (∀ panic, (syncDatabases p o dbs errs).result ≠ .error (.panic panic)) ∧
    ∃ calls : List (Handled p),
      (syncDatabases p o dbs errs).emitted = calls.map (fun h => .sync h.call) ∧
      ∀ acl ∈ p.reg.managedACLs, ∀ l, p.wanted[acl]? = some l → ∀ i g, l[i]? = some g →
        Generated p.reg g →
        (p.reg.instanceWide g = false → ∀ h ∈ calls, h.call.acl = acl →
          ∀ e ∈ h.parts[i]?.getD [], e.database = h.call.dbname) ∧
        (expansions calls acl i).Nodup ∧
        (Answers p dbs → ∀ final errs',
          (syncDatabases p o dbs errs).result = .ok (final, errs') →
            ∀ e, e ∈ expansions calls acl i ↔ Target p final g e) := by
  obtain ⟨calls, hcalls, hnodup, hat⟩ := calls_of_run p o dbs errs
  refine ⟨fun panic h => (syncDatabases_within p o dbs errs).ends _ h, calls, hcalls,
    fun acl hacl l hl i g hi hgen => ?_⟩
  cases hfiled acl l hl g (List.mem_of_getElem? hi)
  have hg : (p.wanted[g.acl]?.getD [])[i]? = some g := by
    rw [hl]
    exact hi
  refine ⟨fun hw h _ hin e he => Handled.database (hin ▸ hg) hw he,
    nodup_expansions hreg hg hnodup hat, fun hans final errs' hdone e => ?_⟩
  exact mem_expansions_iff hreg hg hdefault hacl hgen hans hcalls hdone

/-! Two databases with a creator, and `SELECT` by default for `alice` on what is
created in any schema. -/
section Sample
open Ldap.Sample Privileges.Sample

def twoDatabases : Server where
  session := .error ""
  rolesBlacklistQuery := .ok []
  databasesQuery := .ok ["app", "postgres"]
  databases := .ok [⟨"app", "bob"⟩, ⟨"postgres", "bob"⟩]
  roleColumns := .ok []
  roles := .ok []
  managedRolesQuery := none
  schemasQuery := fun _ => .ok ["public"]
  schemas := fun _ => .ok [("public", "bob")]
  creators := fun _ => .ok [("public", ["bob"])]
  grants := fun _ _ => .ok []

def byDefault : Grant := { wanted "SELECT" "SCHEMA DEFAULT" "__all__" with owner := "__auto__" }

def selectByDefault : Plan where
  reg := registry "SELECT" "SCHEMA DEFAULT"
  server := twoDatabases
  roles := ["alice", "bob"]
  wanted := (∅ : Dict (List Grant)).insert "SCHEMA DEFAULT" [byDefault]
  defaultDatabase := "postgres"

def empties : DBMap := .ofRows [⟨"app", "bob"⟩, ⟨"postgres", "bob"⟩]

/-- What the loop finds in both databases. -/
def foundIn (st : DBMap × List String) : Bool :=
  ["app", "postgres"].all fun d => st.1.map.contains d &&
    (databaseOf st.1 d).schemas.contains "public" && creators (databaseOf st.1 d) "public" == ["bob"]

/-- The grant is made once in each database, on what `bob` creates. -/
theorem select_by_default_once :
    ∃ calls : List (Handled selectByDefault),
      (syncDatabases selectByDefault Order.sorted empties []).emitted =
        calls.map (fun h => .sync h.call) ∧
      (expansions calls "SCHEMA DEFAULT" 0).Nodup ∧ ∀ d ∈ ["app", "postgres"],
        { byDefault with schema := "public", owner := "bob", database := d } ∈
          expansions calls "SCHEMA DEFAULT" 0 := by
  have hwanted : selectByDefault.wanted["SCHEMA DEFAULT"]? = some [byDefault] :=
    Std.ExtTreeMap.getElem?_insert_self
  have hfiled : ∀ (acl : String) (l : List Grant), selectByDefault.wanted[acl]? = some l →
      ∀ g ∈ l, g.acl = acl := by
    intro acl l hl g hg
    rcases Dict.get_insert_cases hl with ⟨rfl, rfl⟩ | ⟨_, hl⟩
    · cases List.mem_singleton.mp hg
      rfl
    · simp at hl
  obtain ⟨_, calls, hcalls, h⟩ := wanted_grant_once selectByDefault Order.sorted empties []
    (builtin_instance rfl) (by decide) hfiled
  have hgen : Generated selectByDefault.reg byDefault :=
    ⟨env, Order.sorted, rule "__all__", {}, _, by decide +kernel, List.mem_singleton.mpr rfl⟩
  have hans : Answers selectByDefault empties := fun _ _ _ _ => ⟨[], rfl, nofun⟩
  obtain ⟨_, hnodup, htargets⟩ := h "SCHEMA DEFAULT" (by decide) _ hwanted 0 byDefault rfl hgen
  refine ⟨calls, hcalls, hnodup, fun d hd => ?_⟩
  have hfound : (syncDatabases selectByDefault Order.sorted empties []).result.toOption.any foundIn =
    true := by decide +kernel
  cases hdone : (syncDatabases selectByDefault Order.sorted empties []).result with
  | error => rw [hdone] at hfound; cases hfound
  | ok st =>
    rw [hdone] at hfound
    have hd := List.all_eq_true.mp hfound d hd
    simp only [Bool.and_eq_true, beq_iff_eq] at hd
    obtain ⟨⟨hin, hschema⟩, hcreators⟩ := hd
    refine (htargets hans st.1 st.2 hdone _).mpr ⟨rfl, hin, ?_, ?_⟩
    · -- the ACL is not one of the instance, so the schemas are those of `d`
      have hlocal : syncedIn selectByDefault byDefault d = d := rfl
      show "public" ∈ (databaseOf st.1 (syncedIn selectByDefault byDefault d)).schemas
      rw [hlocal]
      exact hschema
    · show "bob" ∈ creators (databaseOf st.1 d) "public"
      rw [hcreators]
      exact List.mem_singleton_self _

end Sample

end Ldap2pg.Cmd.Once
