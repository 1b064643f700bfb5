import Ldap2pg.Cmd.Safety

/-! # How far the blacklist reaches

The blacklist is a list of glob patterns. The session user is put on it by name,
and read back as a pattern. Names of parents are not looked up on it. -/
namespace Ldap2pg.Cmd.Blacklist
open Lib Ldap2pg.Lists Pyfmt Ldap Postgres Roles
open Privileges Wanted Inspect Cmd.Safety

variable {c : Conf} {o : Order} {server : Server} {inst : Instance} {wanted : Outcome} {s : Stage1}

/-! ## The session user -/

theorem stage0_blacklist {glob : Glob} {fallbackOwner : String}
    (h : stage0 glob server fallbackOwner = .ok inst) :
    ∃ rows, server.rolesBlacklistQuery = .ok rows ∧
      ∀ pattern, pattern ∈ inst.rolesBlacklist ↔ pattern ∈ rows ∨ pattern = inst.me := by
  obtain ⟨inst₀, hsession, h⟩ := bind_eq_ok.mp h
  obtain ⟨rows, hrows, h⟩ := bind_eq_ok.mp h
  obtain ⟨_, _, h⟩ := bind_eq_ok.mp h
  cases h
  refine ⟨rows, mapError_eq_ok.mp hrows, fun pattern => ?_⟩
  simp only
  split
  · rename_i hme
    exact ⟨.inl, fun h => h.elim id fun he => he ▸ by simpa using hme⟩
  · simp

theorem unlisted_of_managed (h : stage1 c.glob inst server = .ok s) {name : String}
    (hname : name ∈ s.managedRoles) : firstMatch c.glob inst.rolesBlacklist name = "" := by
  have hspec := stage1_spec h
  obtain ⟨dbs, _, h⟩ := bind_eq_ok.mp h
  obtain ⟨columns, _, h⟩ := bind_eq_ok.mp h
  obtain ⟨rows, _, h⟩ := bind_eq_ok.mp h
  obtain ⟨roles, _, h⟩ := bind_eq_ok.mp h
  obtain ⟨managed, hmanaged, h⟩ := bind_eq_ok.mp h
  cases h
  unfold inspectManagedRoles at hmanaged
  split at hmanaged
  · -- without a query the managed roles are all roles
    cases hmanaged
    obtain ⟨⟨_, _, row, _, hrow⟩, hun⟩ := (hspec.mem_all name).mp hname
    exact (firstMatch_eq_empty (hrow ▸ row.named)).mpr hun
  · obtain ⟨names, _, hmanaged⟩ := bind_eq_ok.mp hmanaged
    obtain ⟨kept, hkept, hmanaged⟩ := bind_eq_ok.mp hmanaged
    cases hmanaged
    cases unlisted_eq hkept
    rcases Dict.mem_fill.mp hname with hname | ⟨name', hname', rfl⟩
    · simp at hname
    · simpa using (List.mem_filter.mp hname').2

/-- The run leaves the role alone. -/
structure Ignored (c : Conf) (o : Order) (server : Server) (wanted : Outcome) (s : Stage1)
    (name : String) : Prop where
  all : name ∉ s.allRoles
  managed : name ∉ s.managedRoles
  wanted : name ∉ wanted.roles
  untouched : ∀ queries, .roles queries ∈ (ldap2pg c o server).emitted →
    ∀ q ∈ queries, q.stmt.subject ≠ some name

theorem ignored_of_firstMatch (h : Prepared c o server inst wanted s) {name : String}
    (hne : name ≠ "") (hmatch : firstMatch c.glob inst.rolesBlacklist name ≠ "") :
    Ignored c o server wanted s name := by
  have hlisted : ¬ Unlisted c inst name := fun hun => hmatch ((firstMatch_eq_empty hne).mpr hun)
  have hspec := stage1_spec h.stage1
  refine ⟨fun hall => hlisted ((hspec.mem_all name).mp hall).2,
    fun hmanaged => hmatch (unlisted_of_managed h.stage1 hmanaged),
    fun hwanted => hlisted (unlisted_of_wanted h hwanted),
    fun queries hcall q hq hs => hlisted (unlisted_of_subject h hcall hq hs)⟩

/-- As documented, a pattern that `Check` accepts is never malformed. -/
theorem matchString_of_stage0 {fallbackOwner : String}
    (h : stage0 filepathMatch server fallbackOwner = .ok inst) (name : String) :
    matchString filepathMatch inst.rolesBlacklist name =
      .ok (firstMatch filepathMatch inst.rolesBlacklist name) := by
  obtain ⟨inst₀, _, h⟩ := bind_eq_ok.mp h
  obtain ⟨rows, _, h⟩ := bind_eq_ok.mp h
  obtain ⟨_, hcheck, h⟩ := bind_eq_ok.mp h
  cases h
  exact matchString_of_good (check_eq_ok (mapError_eq_ok.mp hcheck))

/-- **When the session user is protected.** `MatchString` finds a pattern for its name exactly
when a configured pattern does or the name matches itself; the run then leaves the
role alone. A name without `[` and backslash matches itself, and of the names
without `*` only these do. -/
theorem myself_ignored_iff (hglob : c.glob = filepathMatch)
    (h0 : stage0 c.glob server c.fallbackOwner = .ok inst) (hne : inst.me ≠ "") :
    (∃ found, matchString c.glob inst.rolesBlacklist inst.me = .ok found ∧ (found ≠ "" ↔
      (∃ rows, server.rolesBlacklistQuery = .ok rows ∧
        ∃ pattern ∈ rows, filepathMatch.isMatch pattern inst.me = true) ∨
      filepathMatch.isMatch inst.me inst.me = true)) ∧
    ((∀ ch ∈ inst.me.toList, ¬ Lib.Glob.Special ch) →
      filepathMatch.isMatch inst.me inst.me = true) ∧
    ('*' ∉ inst.me.toList → filepathMatch.isMatch inst.me inst.me = true →
      ∀ ch ∈ inst.me.toList, ¬ Lib.Glob.Special ch) ∧
    (matchString c.glob inst.rolesBlacklist inst.me ≠ .ok "" →
      ∀ o wanted s, Prepared c o server inst wanted s → Ignored c o server wanted s inst.me) := by
  obtain ⟨rows, hrows, hmem⟩ := stage0_blacklist h0
  obtain ⟨hself, honly⟩ := Lib.Glob.isMatch_self (p := inst.me.toList)
  have hfound := matchString_of_stage0 (hglob ▸ h0) inst.me
  rw [← hglob] at hfound
  refine ⟨⟨_, hfound, ?_⟩, fun hplain => ?_, fun hstar hmatch => ?_, fun hmatch o wanted s h =>
    ignored_of_firstMatch h hne fun he => hmatch (hfound.trans (congrArg _ he))⟩
  · rw [Ne, firstMatch_eq_empty hne, hglob]
    constructor
    · intro hsome
      obtain ⟨pattern, hin, hmatch⟩ : ∃ pattern ∈ inst.rolesBlacklist,
          filepathMatch.isMatch pattern inst.me = true := by
        by_contra hnone
        exact hsome fun pattern hin => Bool.not_eq_true _ ▸ fun hm => hnone ⟨pattern, hin, hm⟩
      rcases (hmem pattern).mp hin with hin | rfl
      · exact .inl ⟨rows, hrows, pattern, hin, hmatch⟩
      · exact .inr hmatch
    · rintro (⟨rows', hrows', pattern, hin, hmatch⟩ | hmatch) hnone
      · cases hrows.symm.trans hrows'
        exact Bool.noConfusion ((hnone pattern ((hmem pattern).mpr (.inl hin))).symm.trans hmatch)
      · exact Bool.noConfusion ((hnone inst.me ((hmem inst.me).mpr (.inr rfl))).symm.trans hmatch)
  · obtain ⟨terms, hparse, hmatch⟩ := hself hplain
    simpa [filepathMatch, hparse] using hmatch
  · cases hparse : Lib.Glob.parse .term inst.me.toList with
    | none => simp [filepathMatch, hparse] at hmatch
    | some terms =>
      refine honly terms hparse hstar ?_
      simpa [filepathMatch, hparse] using hmatch

section Sample
open Ldap.Sample Wanted.Sample

/-- Nobody wants the roles of the server. -/
def nobody : Conf := { nothingWanted with glob := filepathMatch }

/-- A server whose only role is the session user. -/
def onlyMe (user : String) (h : user ≠ "") : Server :=
  { oneRole with
    session := .ok { serverVersionNum := 160000, database := "app", user, super := true }
    roles := .ok [⟨{ name := user }, h⟩]
    managedRolesQuery := none }

def backslashUser : Server := onlyMe "corp\\admin" (by decide)

/-- The user drops itself: as a pattern, its name matches another one. -/
theorem backslash_user_dropped : ∃ inst, stage0 filepathMatch backslashUser "" = .ok inst ∧
    inst.me = "corp\\admin" ∧ matchString filepathMatch inst.rolesBlacklist inst.me = .ok "" ∧
    ∃ queries, .roles queries ∈ (ldap2pg nobody Order.sorted backslashUser).emitted ∧
      .drop inst.me ∈ queries.map SyncQuery.stmt := by
  obtain ⟨inst, h0⟩ : ∃ inst, stage0 filepathMatch backslashUser "" = .ok inst := ⟨_, rfl⟩
  cases h0
  refine ⟨_, rfl, rfl, by decide +kernel, ?_⟩
  refine (drop_mem_ldap2pg (s := _) (c := nobody) ⟨rfl, rfl, rfl, rfl⟩).mpr ⟨?_, ?_, ?_, ?_, by decide⟩
  · exact nofun
  · intro pattern hpattern
    cases List.mem_singleton.mp hpattern
    decide +kernel
  · exact ⟨_, rfl, _, List.mem_singleton.mpr rfl, rfl⟩
  · decide

theorem plain_user_ignored : ∃ inst, stage0 filepathMatch oneRole "" = .ok inst ∧
    ∃ found, matchString filepathMatch inst.rolesBlacklist inst.me = .ok found ∧ found ≠ "" := by
  obtain ⟨inst, h0⟩ : ∃ inst, stage0 filepathMatch oneRole "" = .ok inst := ⟨_, rfl⟩
  refine ⟨inst, h0, ?_⟩
  have hme : inst.me = "postgres" := by
    cases h0
    rfl
  obtain ⟨⟨found, hfound, hiff⟩, hplain, _⟩ :=
    myself_ignored_iff (c := nobody) rfl h0 (by rw [hme]; decide)
  exact ⟨found, hfound, hiff.mpr (.inr (hplain (by rw [hme]; simp [Lib.Glob.Special])))⟩

end Sample

/-! ## Parents -/

/-- **When the blacklist applies to parents.** `Diff` names no blacklisted parent
exactly when each wanted role has, among blacklisted names, the parents it wants,
none if the role is to be created. -/
theorem parents_unlisted_iff (h : Prepared c o server inst wanted s) :
    ∃ out, diff s.columns (o.sub 1) s.allRoles s.managedRoles wanted.roles inst.fallbackOwner
        s.databases = some out ∧
      ((∀ q ∈ out.1, ∀ p ∈ q.stmt.parents, Unlisted c inst p) ↔
        ∀ (name : String) (role : Role), wanted.roles[name]? = some role →
          ∀ p, ¬ Unlisted c inst p →
            (p ∈ role.parentNames ↔ p ∈ s.allRoles.parentNames name)) := by
  obtain ⟨out, hdiff⟩ := diff_total s.columns (o.sub 1) s.allRoles s.managedRoles
    inst.fallbackOwner s.databases h.keyIsName h.wellFormed.acyclic
  refine ⟨out, hdiff, fun hall name role hrole p hlisted => ?_, fun hsame q hq p hp => ?_⟩
  · by_contra hdiffer
    obtain ⟨q, hq, hp⟩ := (namesParent_diff hdiff h.keyIsName h.wellFormed.acyclic).mpr
      ⟨name, role, hrole, hdiffer⟩
    exact hlisted (hall q hq p hp)
  · obtain ⟨name, role, hrole, hdiffer⟩ :=
      (namesParent_diff hdiff h.keyIsName h.wellFormed.acyclic).mp ⟨q, hq, hp⟩
    by_contra hlisted
    exact hdiffer (hsame name role hrole p hlisted)

section Sample
open Ldap.Sample Wanted.Sample

/-- A role under one parent. -/
def alice (parent : String) : Conf :=
  { nobody with rules := [{ roleRules := [roleRule (literal "alice") [parent]] }] }

/-- The default blacklist, and no role yet. -/
def noRole : Server :=
  { oneRole with
    rolesBlacklistQuery := .ok ["postgres", "pg_*"]
    roles := .ok []
    managedRolesQuery := none }

theorem blacklisted_parent_granted : ∃ inst wanted s,
    Prepared (alice "pg_monitor") Order.sorted noRole inst wanted s ∧
      ∃ out, diff s.columns (Order.sorted.sub 1) s.allRoles s.managedRoles wanted.roles
          inst.fallbackOwner s.databases = some out ∧
        (∃ q ∈ out.1, "pg_monitor" ∈ q.stmt.parents) ∧
        ¬ Unlisted (alice "pg_monitor") inst "pg_monitor" := by
  refine ⟨_, _, _, ⟨rfl, rfl, rfl, rfl⟩, _, rfl, ?_, fun hun => ?_⟩
  · exact ⟨_, List.mem_cons_self, List.mem_singleton.mpr rfl⟩
  · exact absurd (hun "pg_*" (by decide)) (by decide +kernel)

theorem unlisted_parent_granted : ∃ inst wanted s,
    Prepared (alice "staff") Order.sorted noRole inst wanted s ∧
      ∃ out, diff s.columns (Order.sorted.sub 1) s.allRoles s.managedRoles wanted.roles
          inst.fallbackOwner s.databases = some out ∧
        ∀ q ∈ out.1, ∀ p ∈ q.stmt.parents, Unlisted (alice "staff") inst p := by
  obtain ⟨inst, h0⟩ : ∃ inst, stage0 filepathMatch noRole "" = .ok inst := ⟨_, rfl⟩
  obtain ⟨wanted, hrun⟩ : ∃ wanted, (alice "staff").run (Order.sorted.sub 0) inst.rolesBlacklist =
    .ok wanted := by cases h0; exact ⟨_, rfl⟩
  obtain ⟨s, h1⟩ : ∃ s, stage1 filepathMatch inst noRole = .ok s := by cases h0; exact ⟨_, rfl⟩
  have hlist : inst.rolesBlacklist = ["postgres", "pg_*"] := by cases h0; rfl
  have hkeys : wanted.roles.keys = ["alice"] := by cases h0; cases hrun; decide
  have hparents : wanted.roles["alice"]?.map Role.parentNames = some ["staff"] := by
    cases h0; cases hrun; decide
  have hnil : wanted.err = none := by cases h0; cases hrun; rfl
  have hall : s.allRoles = ∅ := by cases h0; cases h1; rfl
  have h : Prepared (alice "staff") Order.sorted noRole inst wanted s := ⟨h0, hrun, hnil, h1⟩
  obtain ⟨out, hdiff, hiff⟩ := parents_unlisted_iff h
  refine ⟨inst, wanted, s, h, out, hdiff, hiff.mpr fun name role hrole p hlisted => ?_⟩
  have hname : name = "alice" := by
    have hin := Std.ExtTreeMap.mem_keys.mpr (Dict.mem_iff.mpr ⟨role, hrole⟩)
    rw [hkeys] at hin
    exact List.mem_singleton.mp hin
  rw [hname] at hrole
  rw [hrole, Option.map_some, Option.some_inj] at hparents
  rw [hparents, hall]
  refine ⟨fun hp => absurd ?_ hlisted, fun hp => absurd hp (by simp [RoleMap.parentNames])⟩
  cases List.mem_singleton.mp hp
  intro pattern hpattern
  rw [hlist] at hpattern
  rcases List.mem_cons.mp hpattern with rfl | hpattern
  · decide +kernel
  · cases List.mem_singleton.mp hpattern
    decide +kernel

end Sample

end Ldap2pg.Cmd.Blacklist
