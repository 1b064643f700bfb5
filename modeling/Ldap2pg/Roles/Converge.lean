import Ldap2pg.Roles.Catalog
import Ldap2pg.Roles.DropSafety

/-! # One run of the role stage brings the catalogue to the wanted roles

Wanted roles are created or altered parents first, then the others are dropped.
While a role is altered its old and new parents coexist, so the statement that
no grant closes a cycle is about mixed graphs: the roles already done and the
unmanaged roles above them form a set closed under membership, which never
contains the role at hand. -/
namespace Ldap2pg.Roles.Converge
open Lib Lib.Digraph Postgres Roles.Catalog Relation

variable {cat : Catalog} {o : Order} {cols : Columns} {S : Set String} {name : String}
  {names : List String}

section OneRole
variable {grantor : String → String → String} {cat : Catalog} {name : String} {c : Stored}
  {cols : Columns} {r w : Role}

/-! ## The parts of `Role.Alter` -/

theorem exec_options (changes : List Clause) :
    execAll grantor (cat.insert name c)
        (if clausesText changes ≠ "" then [.alterOptions name changes] else []) =
      some (cat.insert name { c with options := changes.foldl Options.set c.options }) := by
  by_cases h : changes = []
  · subst h; rfl
  · rw [if_pos (mt clausesText_eq_empty.mp h), execAll_cons, exec, alterRole_insert]
    rfl

/-- A set of roles closed under membership. -/
def Closed (cat : Catalog) (S : Set String) : Prop := ∀ x ∈ S, ∀ y ∈ cat.parentNames x, y ∈ S

theorem Closed.not_reaches {p : String} (hS : Closed cat S) (hp : p ∈ S) (hname : name ∉ S) :
    ¬ cat.Reaches p name := by
  intro h
  have hin : ∀ y, cat.Reaches p y → y ∈ S := by
    intro y hy
    induction hy with
    | refl => exact hp
    | tail _ hstep ih => exact hS _ ih _ hstep
  exact hname (hin name h)

theorem Closed.insert (hS : Closed cat S) (hname : name ∉ S) (c : Stored) :
    Closed (cat.insert name c) S := by
  intro x hx y ⟨cx, hcx, hm⟩
  have hne : name ≠ x := fun he => hname (he ▸ hx)
  rw [Dict.get_insert, if_neg hne] at hcx
  exact hS x hx y ⟨cx, hcx, hm⟩

theorem exec_grants (hS : Closed cat S) (hname : name ∉ S) (parents : List String)
    (hp : ∀ p ∈ parents, p ∈ S ∧ p ∈ cat) :
    ∀ c : Stored, exec grantor (cat.insert name c) (.grantParents parents name) =
      some (cat.insert name { c with
        memberships := (parents.map (membership grantor name)).toFinset ∪ c.memberships }) := by
  induction parents with
  | nil => intro c; simp [exec]
  | cons p parents ih =>
    intro c
    obtain ⟨hpS, hpcat⟩ := hp p List.mem_cons_self
    have hgrant : grantParent grantor name (cat.insert name c) p =
        some (cat.insert name { c with
          memberships := insert (membership grantor name p) c.memberships }) := by
      have hin : p ∈ cat.insert name c := by
        rw [Std.ExtTreeMap.mem_insert]; exact .inr hpcat
      rw [grantParent, if_pos ⟨hin, (hS.insert hname c).not_reaches hpS hname⟩, alterRole_insert]
    have hrest := ih (fun q hq => hp q (List.mem_cons_of_mem p hq))
      { c with memberships := insert (membership grantor name p) c.memberships }
    rw [exec] at hrest ⊢
    rw [List.foldlM_cons, hgrant]
    simpa using hrest

theorem exec_revokes (spurious : List Membership) :
    ∀ c : Stored, execAll grantor (cat.insert name c)
        (spurious.map fun m => .revokeParent m.name name m.grantor) =
      some (cat.insert name { c with memberships := c.memberships.filter (· ∉ spurious) }) := by
  induction spurious with
  | nil => intro c; simp [execAll_nil]
  | cons m spurious ih =>
    intro c
    have hfilter : (c.memberships.erase m).filter (· ∉ spurious) =
        c.memberships.filter (· ∉ m :: spurious) := by
      ext x
      simp only [Finset.mem_filter, Finset.mem_erase, List.mem_cons, not_or]
      tauto
    rw [List.map_cons, execAll_cons, exec, alterRole_insert, Option.bind_some, ih, hfilter]

theorem exec_comment {current wanted : String} (h : c.comment = current) :
    execAll grantor (cat.insert name c)
        (if wanted ≠ current then [.comment name wanted] else []) =
      some (cat.insert name { c with comment := wanted }) := by
  by_cases he : wanted = current
  · rw [if_neg (not_not.mpr he), execAll_nil, he, ← h]
  · rw [if_pos he, execAll_cons, exec, alterRole_insert]
    rfl

/-- A statement that gives the setting `key` of the role its value in `target`. -/
inductive Sets (name : String) (target : Config) : String → Stmt → Prop
  | reset {key : String} : target[key]? = none → Sets name target key (.resetConfig name key)
  | update {key value : String} : target[key]? = some value →
      Sets name target key (.setConfig name key value)
  | init {key value : String} : target[key]? = some value →
      Sets name target key (.initConfig name key value)

/-- Statements that set every key on which the role and the target differ bring
the settings of the role to the target. -/
theorem exec_config (target : Config) (stmts : List Stmt)
    (hsets : ∀ s ∈ stmts, ∃ key, Sets name target key s) :
    ∀ c : Stored, (∀ key : String, c.config[key]? = target[key]? ∨ ∃ s ∈ stmts, Sets name target key s) →
      execAll grantor (cat.insert name c) stmts =
        some (cat.insert name { c with config := target }) := by
  induction stmts with
  | nil =>
    intro c hc
    have he : c.config = target := Dict.ext_get fun key => by simpa using hc key
    rw [execAll_nil, ← he]
  | cons s stmts ih =>
    intro c hc
    obtain ⟨key, hs⟩ := hsets s List.mem_cons_self
    obtain ⟨config, hexec, hget⟩ : ∃ config : Config,
        exec grantor (cat.insert name c) s = some (cat.insert name { c with config := config }) ∧
          ∀ k : String, config[k]? = if key = k then target[k]? else c.config[k]? := by
      cases hs with
      | reset hv =>
        refine ⟨_, by rw [exec, alterRole_insert], fun k => ?_⟩
        rw [Dict.get_erase]
        by_cases he : key = k
        · subst he; simp [hv]
        · simp [he]
      | update hv =>
        refine ⟨_, by rw [exec, alterRole_insert], fun k => ?_⟩
        rw [Dict.get_insert]
        by_cases he : key = k
        · subst he; simp [hv]
        · simp [he]
      | init hv =>
        refine ⟨_, by rw [exec, alterRole_insert], fun k => ?_⟩
        rw [Dict.get_insert]
        by_cases he : key = k
        · subst he; simp [hv]
        · simp [he]
    rw [execAll_cons, hexec, Option.bind_some,
      ih (fun s' hs' => hsets s' (List.mem_cons_of_mem s hs')) { c with config := config }]
    intro k
    by_cases he : key = k
    · left; rw [hget, if_pos he]
    · rcases hc k with hk | ⟨s', hs', hk⟩
      · left; rw [hget, if_neg he, hk]
      · rcases List.mem_cons.mp hs' with rfl | hs'
        · -- the head sets another key
          refine absurd ?_ he
          cases hs <;> cases hk <;> rfl
        · exact .inr ⟨s', hs', hk⟩

/-! ## `Role.Alter` and `Role.Create` as a whole -/

theorem alter_stmts (cols : Columns) (o : Order) (r w : Role) :
    (r.alter cols o w).map SyncQuery.stmt =
      (if clausesText (r.options.diff cols w.options) ≠ "" then
        [Stmt.alterOptions r.name (r.options.diff cols w.options)] else [])
      ++ (if (r.missingParents w.parents).length > 0 then
        [Stmt.grantParents ((r.missingParents w.parents).map Membership.name) r.name] else [])
      ++ ((w.missingParents r.parents).map fun m => Stmt.revokeParent m.name r.name m.grantor)
      ++ (if w.comment ≠ r.comment then [Stmt.comment r.name w.comment] else [])
      ++ (r.alterConfig o w).map SyncQuery.stmt := by
  simp only [Role.alter, List.map_append, apply_ite (List.map SyncQuery.stmt), List.map_cons,
    List.map_nil, List.map_map, Function.comp_def]

/-- The settings part of `Role.Alter` sets exactly the keys that differ. -/
theorem alterConfig_sets {config target : Config} (hr : r.config = some config)
    (hw : w.config = some target) :
    (∀ s ∈ (r.alterConfig o w).map SyncQuery.stmt, ∃ key, Sets r.name target key s) ∧
      ∀ key : String, config[key]? = target[key]? ∨
        ∃ s ∈ (r.alterConfig o w).map SyncQuery.stmt, Sets r.name target key s := by
  unfold Role.alterConfig
  rw [hw, hr]
  simp only [Option.getD_some, List.map_append, List.mem_append, List.mem_map]
  constructor
  · rintro s (⟨q, hq, rfl⟩ | ⟨q, hq, rfl⟩)
    · obtain ⟨key, _, hq⟩ := List.mem_filterMap.mp hq
      cases hv : target[key]? with
      | none => rw [hv] at hq; cases hq; exact ⟨key, .reset hv⟩
      | some value =>
        simp only [hv] at hq
        split at hq
        · cases hq
        · cases hq; exact ⟨key, .update hv⟩
    · obtain ⟨key, hkey, rfl⟩ := hq
      have hkey : key ∈ target := by
        have := (List.mem_filter.mp (Order.mem_range.mp hkey)).1
        exact Std.ExtTreeMap.mem_keys.mp this
      obtain ⟨value, hv⟩ := Dict.mem_iff.mp hkey
      exact ⟨key, .update (by rw [hv]; rfl)⟩
  · intro key
    cases hc : config[key]? with
    | some current =>
      have hkey : key ∈ (o.sub 0).range config.keys :=
        Order.mem_range.mpr (Dict.mem_keys_iff.mpr ⟨current, hc⟩)
      cases hv : target[key]? with
      | none =>
        right
        exact ⟨_, .inl ⟨_, List.mem_filterMap.mpr ⟨key, hkey, by simp only [hv]; rfl⟩, rfl⟩, .reset hv⟩
      | some value =>
        by_cases he : value = current
        · left; rw [he]
        · right
          have hne : ¬ some value = config[key]? := by rw [hc]; exact fun h => he (Option.some.inj h)
          exact ⟨_, .inl ⟨_, List.mem_filterMap.mpr ⟨key, hkey, by
            simp only [hv]; exact if_neg hne⟩, rfl⟩, .update hv⟩
    | none =>
      cases hv : target[key]? with
      | none => exact .inl rfl
      | some value =>
        right
        have hkey : key ∈ (o.sub 1).range (target.keys.filter fun k => k ∉ config) := by
          refine Order.mem_range.mpr (List.mem_filter.mpr ⟨Dict.mem_keys_iff.mpr ⟨value, hv⟩, ?_⟩)
          simpa using Dict.not_mem_iff.mpr hc
        exact ⟨_, .inr ⟨_, ⟨key, hkey, rfl⟩, rfl⟩, .update (by rw [hv]; rfl)⟩

/-- The role once altered: missing parents added, spurious ones removed. -/
def altered (grantor : String → String → String) (cols : Columns) (name : String) (r w : Role)
    (c : Stored) : Stored where
  options := (r.options.diff cols w.options).foldl Options.set c.options
  memberships :=
    (((r.missingParents w.parents).map Membership.name).map (membership grantor name)).toFinset
      ∪ c.memberships |>.filter (· ∉ w.missingParents r.parents)
  comment := w.comment
  config := w.config.getD c.config

theorem exec_alter (hread : ReadsRole cols c r) (hname : r.name = name) (hS : Closed cat S)
    (hout : name ∉ S) (hp : ∀ p ∈ w.parents.map Membership.name, p ∈ S ∧ p ∈ cat) :
    execAll grantor (cat.insert name c) ((r.alter cols o w).map SyncQuery.stmt) =
      some (cat.insert name (altered grantor cols name r w c)) := by
  have hgrants : ∀ c : Stored, execAll grantor (cat.insert name c)
      (if (r.missingParents w.parents).length > 0 then
        [Stmt.grantParents ((r.missingParents w.parents).map Membership.name) r.name] else []) =
      some (cat.insert name { c with memberships :=
        (((r.missingParents w.parents).map Membership.name).map (membership grantor name)).toFinset
          ∪ c.memberships }) := by
    intro c
    split
    · rw [execAll_cons, hname, exec_grants hS hout]
      · rfl
      · intro p hpm
        obtain ⟨m, hm, rfl⟩ := List.mem_map.mp hpm
        exact hp m.name (List.mem_map_of_mem (mem_missingParents.mp hm).1)
    · have hnil : r.missingParents w.parents = [] := by
        apply List.eq_nil_of_length_eq_zero
        omega
      simp [hnil, execAll_nil]
  have hconfig : ∀ c' : Stored, c'.config = c.config → execAll grantor (cat.insert name c')
      ((r.alterConfig o w).map SyncQuery.stmt) =
      some (cat.insert name { c' with config := w.config.getD c'.config }) := by
    intro c' hc'
    cases hw : w.config with
    | none => simp [Role.alterConfig, hw, execAll_nil]
    | some target =>
      obtain ⟨hsets, hcover⟩ := alterConfig_sets (o := o) hread.config hw
      rw [hname] at hsets hcover
      exact exec_config target _ hsets c' (by rw [hc']; exact hcover)
  rw [alter_stmts, execAll_append, execAll_append, execAll_append, execAll_append]
  simp only [hname] at hgrants ⊢
  rw [exec_options, Option.bind_some, hgrants, Option.bind_some, exec_revokes, Option.bind_some,
    exec_comment (by exact hread.comment.symm), Option.bind_some, hconfig _ (by rfl)]
  rfl

/-- Altering brings the role to what is wanted. -/
theorem altered_synced (hread : ReadsRole cols c r) :
    Synced cols w (altered grantor cols name r w c) := by
  refine ⟨?_, ?_, rfl, ?_⟩
  · intro col hcol
    have hget := Options.get_foldl_set w.options col
      (Column.all.filter fun col => cols col && r.options.get col != w.options.get col) c.options
    refine hget.trans ?_
    split
    case isTrue => rfl
    case isFalse hnot =>
      have heq : r.options.get col = w.options.get col := by
        by_contra hne
        exact hnot (List.mem_filter.mpr ⟨col.mem_all, by simp [hcol, hne]⟩)
      rw [← hread.options col hcol, heq]
  · intro p
    simp only [altered, Finset.mem_filter, Finset.mem_union, List.mem_toFinset, List.mem_map]
    constructor
    · rintro ⟨m, ⟨hm, hkeep⟩, rfl⟩
      rcases hm with ⟨p', ⟨m', hm', rfl⟩, rfl⟩ | hm
      · exact ⟨m', (mem_missingParents.mp hm').1, rfl⟩
      · by_contra hnot
        refine hkeep (mem_missingParents.mpr ⟨(hread.parents m).mpr hm, ?_⟩)
        simpa using hnot
    · rintro ⟨m, hm, rfl⟩
      have hwanted : m.name ∈ w.parents.map Membership.name := List.mem_map_of_mem hm
      by_cases hhas : m.name ∈ r.parents.map Membership.name
      · obtain ⟨m', hm', he⟩ := List.mem_map.mp hhas
        refine ⟨m', ⟨.inr ((hread.parents m').mp hm'), ?_⟩, he⟩
        exact fun h => (mem_missingParents.mp h).2 (he ▸ hwanted)
      · refine ⟨membership grantor name m.name,
          ⟨.inl ⟨m.name, ⟨m, mem_missingParents.mpr ⟨hm, hhas⟩, rfl⟩, rfl⟩, ?_⟩, rfl⟩
        exact fun h => (mem_missingParents.mp h).2 hwanted
  · intro config hw
    simp [altered, hw]

/-- The role once created. -/
def created (grantor : String → String → String) (cols : Columns) (name : String) (w : Role) :
    Stored where
  options := (w.options.clauses cols).foldl Options.set defaultOptions
  memberships := ((w.parents.map Membership.name).map (membership grantor name)).toFinset
  comment := w.comment
  config := w.config.getD ∅

/-- The settings that `Role.Create` writes. -/
def initStmts (o : Order) (name : String) : Option Config → List Stmt
  | none => []
  | some config => (o.range config.keys).map fun k =>
      Stmt.initConfig name k (config[k]?.getD "")

theorem exec_initStmts (config : Option Config) {c : Stored} (hc : c.config = ∅) :
    execAll grantor (cat.insert name c) (initStmts o name config) =
      some (cat.insert name { c with config := config.getD ∅ }) := by
  cases config with
  | none => simp [initStmts, execAll_nil, ← hc]
  | some target =>
    have hsets : ∀ k ∈ o.range target.keys,
        Sets name target k (.initConfig name k (target[k]?.getD "")) := by
      intro k hk
      obtain ⟨value, hv⟩ := Dict.mem_keys_iff.mp (Order.mem_range.mp hk)
      exact .init (by rw [hv]; rfl)
    refine exec_config target _ (fun s hs => ?_) c (fun k => ?_)
    · obtain ⟨k, hk, rfl⟩ := List.mem_map.mp hs
      exact ⟨k, hsets k hk⟩
    · cases hv : target[k]? with
      | none => left; simp [hc]
      | some value =>
        have hk : k ∈ o.range target.keys := Order.mem_range.mpr (Dict.mem_keys_iff.mpr ⟨value, hv⟩)
        exact .inr ⟨_, List.mem_map_of_mem hk, hsets k hk⟩

theorem exec_create (hname : w.name = name) (hnew : name ∉ cat) (hbefore : w.beforeCreate = "")
    (hafter : w.afterCreate = "") (hp : ∀ p ∈ w.parents.map Membership.name, p ∈ cat) :
    execAll grantor cat ((w.create cols o).map SyncQuery.stmt) =
      some (cat.insert name (created grantor cols name w)) := by
  have hstmts : (w.create cols o).map SyncQuery.stmt =
      [Stmt.create name (w.options.clauses cols) (w.parents.map Membership.name),
        Stmt.comment name w.comment]
      ++ initStmts o name w.config := by
    simp only [Role.create, hbefore, hafter, hname]
    cases w.config <;> simp [initStmts]
  rw [hstmts, execAll_append, execAll_cons, exec, if_pos ⟨hnew, hp⟩, Option.bind_some,
    execAll_cons, exec, alterRole_insert, Option.bind_some, execAll_nil, Option.bind_some,
    exec_initStmts w.config rfl]
  rfl

theorem created_synced : Synced cols w (created grantor cols name w) := by
  refine ⟨?_, ?_, rfl, ?_⟩
  · intro col hcol
    have hget := Options.get_foldl_set w.options col (Column.all.filter cols) defaultOptions
    refine hget.trans (if_pos (List.mem_filter.mpr ⟨col.mem_all, hcol⟩))
  · intro p
    simp [created, membership]
  · intro config hw
    simp [created, hw]

end OneRole

/-! ## The wanted roles, parents first -/

/-- What is known before a run: the catalogue and its inspection, and a wanted
map that `Map.Check` accepts. A parent that is not wanted must exist, stay, and
not be itself a member of a wanted role. -/
structure Situation (cols : Columns) (cat : Catalog) (all managed wanted : RoleMap) : Prop where
  reads : Reads cols cat all
  key : KeyIsName wanted
  checked : ∃ o, Map.check o wanted = some none
  hooks : ∀ (name : String) (w : Role), wanted[name]? = some w →
    w.beforeCreate = "" ∧ w.afterCreate = ""
  parents : ∀ (name : String) (w : Role), wanted[name]? = some w →
    ∀ p ∈ w.parents.map Membership.name, p ∈ wanted ∨
      (p ∈ cat ∧ ¬ Dropped all managed wanted p ∧ ∀ x ∈ wanted, ¬ cat.Reaches p x)

/-- The catalogue when the roles of `done` are synchronised and no other was
touched. -/
structure Progress (cols : Columns) (start : Catalog) (wanted : RoleMap) (done : List String)
    (cat : Catalog) : Prop where
  synced : ∀ name ∈ done, ∀ w : Role, wanted[name]? = some w →
    ∃ c, cat[name]? = some c ∧ Synced cols w c ∧
      c.config = w.config.getD ((start[name]?.map Stored.config).getD ∅)
  rest : ∀ name : String, name ∉ done → cat[name]? = start[name]?

section Upserts
variable {grantor : String → String → String} {cols : Columns} {start : Catalog}
  {all managed wanted : RoleMap}

/-- The roles done so far and the unwanted roles below which no wanted role is. -/
def settled (start : Catalog) (wanted : RoleMap) (done : List String) : Set String :=
  { x | x ∈ done ∨ (x ∉ wanted ∧ ∀ y ∈ wanted, ¬ start.Reaches x y) }

theorem settled_closed (hs : Situation cols start all managed wanted)
    (htop : Topological (parentKeys wanted) names) (hnames : ∀ k, k ∈ names ↔ k ∈ wanted)
    {done rest : List String} (hsplit : names = done ++ rest)
    (hp : Progress cols start wanted done cat) : Closed cat (settled start wanted done) := by
  intro x hx y ⟨c, hc, m, hm, hy⟩
  rcases hx with hx | ⟨hx, hfree⟩
  · have hxw : x ∈ wanted := (hnames x).mp (hsplit ▸ List.mem_append_left rest hx)
    obtain ⟨w, hw⟩ := Dict.mem_iff.mp hxw
    obtain ⟨c', hc', hsync, _⟩ := hp.synced x hx w hw
    obtain rfl : c' = c := Option.some.inj (hc'.symm.trans hc)
    have hpar : y ∈ w.parents.map Membership.name := (hsync.parents y).mp ⟨m, hm, hy⟩
    by_cases hyw : y ∈ wanted
    · left
      obtain ⟨before, after, rfl⟩ := List.append_of_mem hx
      have hin : y ∈ before := htop.closed before x (after ++ rest)
        (by rw [hsplit]; simp) y ((mem_parentKeys hs.key).mpr ⟨w, hw, hpar, hyw⟩)
      exact List.mem_append_left _ hin
    · right
      rcases hs.parents x w hw y hpar with h | ⟨_, _, hfree⟩
      · exact absurd h hyw
      · exact ⟨hyw, hfree⟩
  · have hnd : x ∉ done := fun h => hx ((hnames x).mp (hsplit ▸ List.mem_append_left rest h))
    rw [hp.rest x hnd] at hc
    have hedge : y ∈ start.parentNames x := ⟨c, hc, m, hm, hy⟩
    right
    exact ⟨fun hyw => hfree y hyw (ReflTransGen.single hedge),
      fun z hz hyz => hfree z hz (ReflTransGen.head hedge hyz)⟩

theorem Progress.snoc {done : List String} {w : Role} {c : Stored}
    (hp : Progress cols start wanted done cat) (hw : wanted[name]? = some w)
    (hsync : Synced cols w c)
    (hconfig : c.config = w.config.getD ((start[name]?.map Stored.config).getD ∅)) :
    Progress cols start wanted (done ++ [name]) (cat.insert name c) := by
  constructor
  · intro k hk wk hwk
    by_cases he : name = k
    · subst he
      obtain rfl : w = wk := Option.some.inj (hw.symm.trans hwk)
      exact ⟨c, by simp, hsync, hconfig⟩
    · have hk : k ∈ done := by
        rcases List.mem_append.mp hk with hk | hk
        · exact hk
        · exact absurd (List.mem_singleton.mp hk).symm he
      obtain ⟨ck, hck, hrest⟩ := hp.synced k hk wk hwk
      exact ⟨ck, by rw [Dict.get_insert, if_neg he, hck], hrest⟩
  · intro k hk
    have hne : name ≠ k := fun he => hk (by simp [he])
    rw [Dict.get_insert, if_neg hne]
    exact hp.rest k fun h => hk (List.mem_append_left _ h)

theorem upsert_step (hs : Situation cols start all managed wanted)
    (htop : Topological (parentKeys wanted) names) (hnames : ∀ k, k ∈ names ↔ k ∈ wanted)
    {done rest : List String} (hsplit : names = done ++ name :: rest)
    (hp : Progress cols start wanted done cat) (o : Order) :
    ∃ cat', execAll grantor cat ((upsert cols o all wanted name).map SyncQuery.stmt) = some cat' ∧
      Progress cols start wanted (done ++ [name]) cat' := by
  have hnd : name ∉ done := by
    have hn := htop.nodup
    rw [hsplit] at hn
    exact fun h => (List.nodup_append.mp hn).2.2 name h name List.mem_cons_self rfl
  have hin : name ∈ wanted := (hnames name).mp (by rw [hsplit]; simp)
  obtain ⟨w, hw⟩ := Dict.mem_iff.mp hin
  have hclosed : Closed cat (settled start wanted done) := settled_closed hs htop hnames hsplit hp
  have hout : name ∉ settled start wanted done := by
    rintro (h | ⟨h, _⟩)
    · exact hnd h
    · exact h hin
  have hparents : ∀ p ∈ w.parents.map Membership.name,
      p ∈ settled start wanted done ∧ p ∈ cat := by
    intro p hpm
    by_cases hpw : p ∈ wanted
    · have hpd : p ∈ done := htop.closed done name rest hsplit p
        ((mem_parentKeys hs.key).mpr ⟨w, hw, hpm, hpw⟩)
      obtain ⟨wp, hwp⟩ := Dict.mem_iff.mp hpw
      obtain ⟨c, hc, _⟩ := hp.synced p hpd wp hwp
      exact ⟨.inl hpd, Dict.mem_iff.mpr ⟨c, hc⟩⟩
    · obtain ⟨hps, _, hfree⟩ := (hs.parents name w hw p hpm).resolve_left hpw
      have hpd : p ∉ done := fun h => hpw ((hnames p).mp (hsplit ▸ List.mem_append_left _ h))
      refine ⟨.inr ⟨hpw, hfree⟩, ?_⟩
      rw [Dict.mem_iff, hp.rest p hpd, ← Dict.mem_iff]
      exact hps
  unfold upsert
  rw [hw]
  cases ha : all[name]? with
  | some r =>
    have hmem : name ∈ start := (hs.reads.mem name).mp (Dict.mem_iff.mpr ⟨r, ha⟩)
    obtain ⟨c, hc⟩ := Dict.mem_iff.mp hmem
    have hread : ReadsRole cols c r := hs.reads.role name r c ha hc
    have hself : cat.insert name c = cat := insert_get (by rw [hp.rest name hnd, hc])
    have hexec : execAll grantor (cat.insert name c) ((r.alter cols o w).map SyncQuery.stmt) =
        some (cat.insert name (altered grantor cols name r w c)) :=
      exec_alter hread (hs.reads.key name r ha) hclosed hout hparents
    rw [hself] at hexec
    exact ⟨_, hexec, hp.snoc hw (altered_synced hread) (by rw [hc]; rfl)⟩
  | none =>
    have hmem : name ∉ start := by
      rw [← hs.reads.mem name, Dict.not_mem_iff]
      exact ha
    have hnone : start[name]? = none := Dict.not_mem_iff.mp hmem
    have hnew : name ∉ cat := by
      rw [Dict.not_mem_iff, hp.rest name hnd]
      exact hnone
    obtain ⟨hbefore, hafter⟩ := hs.hooks name w hw
    have hexec : execAll grantor cat ((w.create cols o).map SyncQuery.stmt) =
        some (cat.insert name (created grantor cols name w)) :=
      exec_create (hs.key name w hw) hnew hbefore hafter fun p hpm => (hparents p hpm).2
    exact ⟨_, hexec, hp.snoc hw created_synced (by rw [hnone]; rfl)⟩

theorem upserts_run (grantor : String → String → String)
    (hs : Situation cols start all managed wanted) (htop : Topological (parentKeys wanted) names)
    (hnames : ∀ k, k ∈ names ↔ k ∈ wanted) (o : Order) (todo : List (String × Nat)) :
    ∀ (done : List String) (cat : Catalog), names = done ++ todo.map Prod.fst →
      Progress cols start wanted done cat →
      ∃ cat', execAll grantor cat ((todo.flatMap fun ni =>
          upsert cols (o.sub ni.2) all wanted ni.1).map SyncQuery.stmt) = some cat' ∧
        Progress cols start wanted names cat' := by
  induction todo with
  | nil =>
    intro done cat hsplit hp
    rw [List.map_nil, List.append_nil] at hsplit
    exact ⟨cat, rfl, hsplit ▸ hp⟩
  | cons ni todo ih =>
    intro done cat hsplit hp
    obtain ⟨cat₁, hexec, hp₁⟩ := upsert_step hs htop hnames hsplit hp (o.sub ni.2)
    obtain ⟨cat₂, hexec₂, hp₂⟩ := ih (done ++ [ni.1]) cat₁ (by rw [hsplit]; simp) hp₁
    refine ⟨cat₂, ?_, hp₂⟩
    rw [List.flatMap_cons, List.map_append, execAll_append, hexec, Option.bind_some, hexec₂]

end Upserts

/-! ## The roles dropped -/

/-- A statement that leaves the roles alone. -/
def neutral : Stmt → Bool
  | .terminate _ | .alterDatabase _ _ | .reassignOwned _ _ => true
  | _ => false

def effective (stmts : List Stmt) : List Stmt := stmts.filter fun s => !neutral s

theorem effective_append (l₁ l₂ : List Stmt) :
    effective (l₁ ++ l₂) = effective l₁ ++ effective l₂ := List.filter_append l₁ l₂

theorem effective_eq_nil {l : List Stmt} (h : ∀ s ∈ l, neutral s = true) : effective l = [] := by
  apply List.filter_eq_nil_iff.mpr
  intro s hs
  simp [h s hs]

section Drops
variable {grantor : String → String → String}

theorem execAll_effective (stmts : List Stmt) :
    ∀ cat : Catalog, execAll grantor cat (effective stmts) = execAll grantor cat stmts := by
  induction stmts with
  | nil => intro cat; rfl
  | cons s stmts ih =>
    intro cat
    by_cases hs : neutral s = true
    · have hskip : exec grantor cat s = some cat := by
        cases s <;> first | rfl | cases hs
      rw [execAll_cons, hskip, Option.bind_some, ← ih]
      simp [effective, hs]
    · have hkeep : effective (s :: stmts) = s :: effective stmts := by simp [effective, hs]
      rw [hkeep, execAll_cons, execAll_cons]
      simp only [ih]

theorem effective_drop (o : Order) (r : Role) (fallbackOwner : String) (dbs : DBMap) :
    effective ((r.drop o fallbackOwner dbs).1.map SyncQuery.stmt) =
      [.noLogin r.name, .drop r.name] := by
  have hin : ∀ q ∈ (emit (r.dropIn fallbackOwner) dbs (o.range dbs.names)).1,
      neutral q.stmt = true := by
    refine (emit_inv (r.dropIn fallbackOwner) (fun _ => True) (fun q => neutral q.stmt = true)
      (fun m dbname _ _ => ⟨fun q hq => ?_, trivial⟩) trivial).1
    unfold Role.dropIn at hq
    split at hq
    · cases hq
    · split at hq
      · rcases List.mem_cons.mp hq with rfl | hq
        · rfl
        · exact List.mem_singleton.mp hq ▸ rfl
      · exact List.mem_singleton.mp hq ▸ rfl
  have hmap : ∀ s ∈ (emit (r.dropIn fallbackOwner) dbs (o.range dbs.names)).1.map SyncQuery.stmt,
      neutral s = true := by
    intro s hs
    obtain ⟨q, hq, rfl⟩ := List.mem_map.mp hs
    exact hin q hq
  simp only [Role.drop, List.map_append, effective_append, effective_eq_nil hmap]
  split <;> rfl

theorem effective_drops (o : Order) (fallbackOwner : String) (roles : List (Role × Nat)) :
    ∀ dbs : DBMap, effective ((emit (fun dbs ri => ri.1.drop (o.sub ri.2) fallbackOwner dbs)
        dbs roles).1.map SyncQuery.stmt) =
      (roles.map fun ri => ri.1.name).flatMap fun name => [.noLogin name, .drop name] := by
  induction roles with
  | nil => intro dbs; rfl
  | cons ri roles ih =>
    intro dbs
    rw [emit, List.map_append, effective_append, effective_drop, ih]
    rfl

/-- The role without its memberships in dropped roles. -/
def forget (names : List String) (c : Stored) : Stored :=
  { c with memberships := c.memberships.filter fun m => m.name ∉ names }

theorem forget_nil (c : Stored) : forget [] c = c := by
  simp [forget]

theorem forget_cons (name : String) (names : List String) (c : Stored) :
    forget names (forget [name] c) = forget (name :: names) c := by
  simp [forget, Finset.filter_filter]

theorem exec_drop (h : name ∈ cat) :
    ∃ cat', execAll grantor cat [.noLogin name, .drop name] = some cat' ∧
      ∀ k : String, cat'[k]? = if k = name then none else cat[k]?.map (forget [name]) := by
  obtain ⟨c, hc⟩ := Dict.mem_iff.mp h
  refine ⟨_, by
    rw [execAll_cons, exec, alterRole, hc, Option.map_some, Option.bind_some, execAll_cons, exec,
      if_pos (by simp), Option.bind_some, execAll_nil], fun k => ?_⟩
  have hforget : forget [name] = fun c : Stored =>
      { c with memberships := c.memberships.filter fun m => m.name ≠ name } := by
    funext c
    simp [forget]
  rw [dropRole, Std.ExtTreeMap.getElem?_map, Dict.get_erase, Dict.get_insert, hforget]
  by_cases he : k = name
  · subst he; simp
  · simp [he, Ne.symm he]

theorem exec_drops (grantor : String → String → String) (names : List String) :
    ∀ cat : Catalog, names.Nodup → (∀ name ∈ names, name ∈ cat) →
      ∃ cat', execAll grantor cat
          (names.flatMap fun name => [.noLogin name, .drop name]) = some cat' ∧
        ∀ k : String, cat'[k]? = if k ∈ names then none else cat[k]?.map (forget names) := by
  induction names with
  | nil =>
    intro cat _ _
    exact ⟨cat, rfl, fun k => by simp [funext forget_nil]⟩
  | cons name names ih =>
    intro cat hn hmem
    obtain ⟨hnot, hn⟩ := List.nodup_cons.mp hn
    obtain ⟨cat₁, hexec₁, hget₁⟩ := exec_drop (hmem name List.mem_cons_self)
    have hmem₁ : ∀ k ∈ names, k ∈ cat₁ := by
      intro k hk
      have hne : k ≠ name := fun he => hnot (he ▸ hk)
      obtain ⟨c, hc⟩ := Dict.mem_iff.mp (hmem k (List.mem_cons_of_mem name hk))
      exact Dict.mem_iff.mpr ⟨_, by rw [hget₁, if_neg hne, hc]; rfl⟩
    obtain ⟨cat₂, hexec₂, hget₂⟩ := ih cat₁ hn hmem₁
    refine ⟨cat₂, ?_, fun k => ?_⟩
    · rw [List.flatMap_cons, execAll_append, hexec₁, Option.bind_some, hexec₂]
    · rw [hget₂, hget₁]
      by_cases hk : k ∈ names
      · simp [hk]
      · by_cases he : k = name
        · simp [he]
        · simp [hk, he, Function.comp_def, forget_cons]

end Drops

/-! ## Grouping by database -/

/-- Only neutral statements leave the default database, which comes last, so
grouping keeps the statements that matter in order. -/
theorem effective_group {dbs : DBMap} {defaultDatabase : String} {queries out : List Query}
    (hd : defaultDatabase ∈ dbs.map)
    (h : groupByDatabase dbs.map defaultDatabase queries = .ok out)
    (hq : ∀ q ∈ queries, q.database = "" ∨ neutral q.stmt = true) :
    effective (out.map SyncQuery.stmt) = effective (queries.map SyncQuery.stmt) := by
  have hothers : ∀ s ∈ ((dbs.map.keys.filter (· ≠ defaultDatabase)).flatMap fun name =>
      (resolvedIn dbs.map defaultDatabase queries).filter fun q => q.database = name).map
        SyncQuery.stmt, neutral s = true := by
    intro s hs
    obtain ⟨q', hq', rfl⟩ := List.mem_map.mp hs
    obtain ⟨name, hname, hq'⟩ := List.mem_flatMap.mp hq'
    obtain ⟨hq', hdb⟩ := List.mem_filter.mp hq'
    obtain ⟨q, hmem, rfl⟩ := List.mem_map.mp hq'
    have hne : name ≠ defaultDatabase := by simpa using (List.mem_filter.mp hname).2
    refine (hq q hmem).resolve_left fun he => hne ?_
    rw [← of_decide_eq_true hdb, SyncQuery.resolved, if_pos he]
  have hdefault : ∀ (first : String) (l : List Query),
      (∀ q ∈ l, q.database = "" ∨ neutral q.stmt = true) →
      effective (((l.map (SyncQuery.resolved defaultDatabase first)).filter fun q =>
        q.database = defaultDatabase).map SyncQuery.stmt) = effective (l.map SyncQuery.stmt) := by
    intro first l
    induction l with
    | nil => intro _; rfl
    | cons q l ih =>
      intro hl
      have hih := ih fun q' hq' => hl q' (List.mem_cons_of_mem q hq')
      by_cases hn : neutral q.stmt = true
      · have hright : effective ((q :: l).map SyncQuery.stmt) = effective (l.map SyncQuery.stmt) := by
          simp [effective, hn]
        rw [hright, ← hih, List.map_cons, List.filter_cons]
        split
        · simp [effective, SyncQuery.resolved, hn]
        · rfl
      · have he : q.database = "" := (hl q List.mem_cons_self).resolve_right hn
        have hkeep : (q.resolved defaultDatabase first).database = defaultDatabase := by
          simp [SyncQuery.resolved, he]
        rw [List.map_cons, List.filter_cons_of_pos (by simpa using hkeep), List.map_cons,
          List.map_cons]
        simp only [effective, List.filter_cons] at hih ⊢
        rw [hih]
        rfl
  rw [groupByDatabase_eq h, syncOrder_last hd, Groups.grouped, List.flatMap_append, List.map_append,
    effective_append, effective_eq_nil hothers, List.nil_append, List.flatMap_singleton, resolvedIn,
    hdefault _ queries hq]

theorem diff_databases {all managed wanted : RoleMap} {fallbackOwner : String} {dbs : DBMap}
    {out : List Query × DBMap} (h : diff cols o all managed wanted fallbackOwner dbs = some out) :
    ∀ q ∈ out.1, q.database = "" ∨ neutral q.stmt = true := by
  intro q hq
  obtain ⟨names, _, hout⟩ := diff_eq_some h
  rw [hout] at hq
  rcases List.mem_append.mp hq with hq | hq
  · exact .inl (mem_upserts hq).1
  · obtain ⟨r, _, hr⟩ := mem_drops hq
    cases hr with
    | terminate _ => exact .inr rfl
    | alterDatabase _ => exact .inr rfl
    | reassign _ _ => exact .inr rfl
    | noLogin => exact .inl rfl
    | drop => exact .inl rfl

/-! ## Nothing to do -/

theorem alterConfig_synced {c : Stored} {r w : Role} (hread : ReadsRole cols c r)
    (hsync : Synced cols w c) : r.alterConfig o w = [] := by
  unfold Role.alterConfig
  cases hw : w.config with
  | none => rfl
  | some target =>
    have hconfig : r.config = some target := by rw [hread.config, hsync.config target hw]
    have hmissing : target.keys.filter (fun k => k ∉ target) = [] := by
      apply List.filter_eq_nil_iff.mpr
      intro k hk
      simpa using Std.ExtTreeMap.mem_keys.mp hk
    rw [hconfig]
    simp only [Option.getD_some, hmissing, Order.range_nil, List.map_nil, List.append_nil]
    apply List.filterMap_eq_nil_iff.mpr
    intro k hk
    obtain ⟨value, hv⟩ := Dict.mem_keys_iff.mp (Order.mem_range.mp hk)
    simp [hv]

/-- A role that is as wanted is left alone. -/
theorem alter_synced {c : Stored} {r w : Role} (hread : ReadsRole cols c r)
    (hsync : Synced cols w c) : r.alter cols o w = [] := by
  have hoptions : r.options.diff cols w.options = [] := diff_eq_nil.mpr fun col hcol =>
    (hread.options col hcol).trans (hsync.options col hcol)
  have hnames : ∀ p, p ∈ r.parents.map Membership.name ↔ p ∈ w.parents.map Membership.name := by
    intro p
    rw [← hsync.parents p, List.mem_map]
    simp only [hread.parents]
  have hmissing : r.missingParents w.parents = [] := by
    apply List.eq_nil_iff_forall_not_mem.mpr
    intro m hm
    obtain ⟨hin, hnot⟩ := mem_missingParents.mp hm
    exact hnot ((hnames m.name).mpr (List.mem_map_of_mem hin))
  have hspurious : w.missingParents r.parents = [] := by
    apply List.eq_nil_iff_forall_not_mem.mpr
    intro m hm
    obtain ⟨hin, hnot⟩ := mem_missingParents.mp hm
    exact hnot ((hnames m.name).mp (List.mem_map_of_mem hin))
  have hcomment : w.comment = r.comment := by rw [hread.comment, hsync.comment]
  simp [Role.alter, hoptions, hmissing, hspurious, hcomment, alterConfig_synced hread hsync,
    clausesText_eq_empty]

theorem stage_synced {all managed wanted : RoleMap} (hread : Reads cols cat all)
    (hkey : KeyIsName wanted) (hacyclic : Map.Acyclic wanted)
    (hsync : ∀ (name : String) (w : Role), wanted[name]? = some w → ∃ c, cat[name]? = some c ∧
    Synced cols w c) (hdropped : ∀ name, ¬ Dropped all managed wanted name) (o : Order)
    (fallbackOwner : String) (dbs : DBMap) (defaultDatabase : String) :
    stage cols o all managed wanted fallbackOwner dbs defaultDatabase = some [] := by
  obtain ⟨names, hflat, _, hnames⟩ := flatten_spec hkey hacyclic (o.sub 0)
  have hnone : dropped (o.sub 3) all managed wanted = [] := by
    apply List.eq_nil_iff_forall_not_mem.mpr
    intro r hr
    obtain ⟨name, hd, _⟩ := mem_dropped.mp hr
    exact hdropped name hd
  have hups : upserts cols (o.sub 1) all wanted names = [] := by
    apply List.flatMap_eq_nil_iff.mpr
    intro ni hni
    have hin : ni.1 ∈ wanted := (hnames ni.1).mp (List.fst_mem_of_mem_zipIdx hni)
    obtain ⟨w, hw⟩ := Dict.mem_iff.mp hin
    obtain ⟨c, hc, hs⟩ := hsync ni.1 w hw
    obtain ⟨r, hr⟩ := Dict.mem_iff.mp ((hread.mem ni.1).mpr (Dict.mem_iff.mpr ⟨c, hc⟩))
    unfold upsert
    rw [hr, hw]
    exact alter_synced (hread.role ni.1 r c hr hc) hs
  have hgroup : groupByDatabase dbs.map defaultDatabase ([] : List Query) = .ok [] := by
    simp only [groupByDatabase]
    exact congrArg Except.ok (List.flatMap_eq_nil_iff.mpr fun _ _ => rfl)
  have hdiff : diff cols o all managed wanted fallbackOwner dbs = some ([], dbs) := by
    unfold diff
    rw [hflat, hnone]
    simp only [Option.bind_eq_bind, Option.bind_some, hups]
    rfl
  unfold stage
  rw [hdiff]
  simp only [Option.bind_eq_bind, Option.bind_some, hgroup]
  rfl

/-- The statements of a run, without the neutral ones: the wanted roles in
topological order, then the dropped ones. -/
theorem stage_exec (cols : Columns) (all managed : RoleMap) {wanted : RoleMap} (hkey : KeyIsName wanted)
    (hacyclic : Map.Acyclic wanted) (o : Order) (fallbackOwner : String) (dbs : DBMap)
    {defaultDatabase : String} (hd : defaultDatabase ∈ dbs.map) :
    ∃ queries names,
      stage cols o all managed wanted fallbackOwner dbs defaultDatabase = some queries ∧
      Topological (parentKeys wanted) names ∧ (∀ k, k ∈ names ↔ k ∈ wanted) ∧
      effective (queries.map SyncQuery.stmt) =
        effective ((upserts cols (o.sub 1) all wanted names).map SyncQuery.stmt) ++
          ((dropped (o.sub 3) all managed wanted).map Role.name).flatMap fun name =>
            [.noLogin name, .drop name] := by
  obtain ⟨names, hflat, htop, hnames⟩ := flatten_spec hkey hacyclic (o.sub 0)
  obtain ⟨out, hdiff⟩ : ∃ out, diff cols o all managed wanted fallbackOwner dbs = some out := by
    unfold diff
    rw [hflat]
    exact ⟨_, rfl⟩
  obtain ⟨queries, hgroup⟩ := groupByDatabase_total hd out.1
  refine ⟨queries, names, ?_, htop, hnames, ?_⟩
  · unfold stage
    rw [hdiff]
    simp only [Option.bind_eq_bind, Option.bind_some, hgroup]
    rfl
  · obtain ⟨names', hflat', hout⟩ := diff_eq_some hdiff
    obtain rfl : names' = names := Option.some.inj (hflat'.symm.trans hflat)
    rw [effective_group hd hgroup (diff_databases hdiff), hout, List.map_append, effective_append,
      drops, effective_drops, zipIdx_map_name]

/-- A role that is as wanted is in no dropped role. -/
theorem Situation.forget_eq {all managed wanted : RoleMap}
    (hs : Situation cols cat all managed wanted) (o : Order) {w : Role} {c : Stored}
    (hw : wanted[name]? = some w) (hsync : Synced cols w c) :
    forget ((dropped o all managed wanted).map Role.name) c = c := by
  have hfilter : c.memberships.filter (fun m =>
      m.name ∉ (dropped o all managed wanted).map Role.name) = c.memberships := by
    apply Finset.filter_true_of_mem
    intro m hm hd
    have hdrop := (mem_dropped_names hs.reads.key).mp hd
    have hpar : m.name ∈ w.parents.map Membership.name := (hsync.parents m.name).mp ⟨m, hm, rfl⟩
    rcases hs.parents name w hw m.name hpar with hmw | ⟨_, hkept, _⟩
    · exact hdrop.unwanted hmw
    · exact hkept hdrop
  rw [forget, hfilter]

/-- **One run of the role stage is enough.** It executes without failure and
leaves every wanted role as wanted, settings of a role without wanted ones being
kept; the dropped roles are gone, and of the other roles only memberships in
dropped ones changed. Another run, on any inspection
of the new catalogue, has nothing to execute. -/
theorem role_stage_converges {cols : Columns} {cat : Catalog} {all managed wanted : RoleMap}
    (hs : Situation cols cat all managed wanted) (grantor : String → String → String) (o : Order)
    (fallbackOwner : String) (dbs : DBMap) {defaultDatabase : String}
    (hd : defaultDatabase ∈ dbs.map) :
    ∃ queries cat',
      stage cols o all managed wanted fallbackOwner dbs defaultDatabase = some queries ∧
      execAll grantor cat (queries.map SyncQuery.stmt) = some cat' ∧
      (∀ (name : String) (w : Role), wanted[name]? = some w →
        ∃ c, cat'[name]? = some c ∧ Synced cols w c ∧
          c.config = w.config.getD ((cat[name]?.map Stored.config).getD ∅)) ∧
      (∀ name : String, name ∉ wanted →
        (Dropped all managed wanted name → name ∉ cat') ∧
        (¬ Dropped all managed wanted name → cat'[name]? =
          cat[name]?.map (forget ((dropped (o.sub 3) all managed wanted).map Role.name)))) ∧
      ∀ (o' : Order) (all' managed' : RoleMap) (fallbackOwner' : String) (dbs' : DBMap)
        (defaultDatabase' : String), Reads cols cat' all' →
        (∀ name ∈ managed', name ∈ managed ∨ name ∈ wanted) →
        stage cols o' all' managed' wanted fallbackOwner' dbs' defaultDatabase' = some [] := by
  obtain ⟨o₀, hcheck⟩ := hs.checked
  have hacyclic : Map.Acyclic wanted := (check_eq_none_iff hs.key o₀).mp hcheck
  obtain ⟨queries, names, hstage, htop, hnames, hstmts⟩ :=
    stage_exec cols all managed hs.key hacyclic o fallbackOwner dbs hd
  have hstart : Progress cols cat wanted [] cat :=
    ⟨fun _ h => absurd h List.not_mem_nil, fun _ _ => rfl⟩
  obtain ⟨cat₁, hups, hp⟩ := upserts_run grantor hs htop hnames (o.sub 1)
    names.zipIdx [] cat (by rw [List.zipIdx_map_fst]; rfl) hstart
  have hpresent : ∀ name ∈ (dropped (o.sub 3) all managed wanted).map Role.name, name ∈ cat₁ := by
    intro name hname
    have hdrop : Dropped all managed wanted name := (mem_dropped_names hs.reads.key).mp hname
    have hnot : name ∉ names := fun h => hdrop.unwanted ((hnames name).mp h)
    rw [Dict.mem_iff, hp.rest name hnot, ← Dict.mem_iff, ← hs.reads.mem]
    exact hdrop.present
  obtain ⟨cat₂, hdrops, hget⟩ := exec_drops grantor _ cat₁
    (nodup_dropped_names (o.sub 3) managed wanted hs.reads.key) hpresent
  have hexec : execAll grantor cat (queries.map SyncQuery.stmt) = some cat₂ := by
    rw [← execAll_effective, hstmts, execAll_append, execAll_effective, upserts, hups,
      Option.bind_some, hdrops]
  have hsynced : ∀ (name : String) (w : Role), wanted[name]? = some w →
      ∃ c, cat₂[name]? = some c ∧ Synced cols w c ∧
        c.config = w.config.getD ((cat[name]?.map Stored.config).getD ∅) := by
    intro name w hw
    have hin : name ∈ wanted := Dict.mem_iff.mpr ⟨w, hw⟩
    obtain ⟨c, hc, hsync, hconfig⟩ := hp.synced name ((hnames name).mpr hin) w hw
    have hstay : name ∉ (dropped (o.sub 3) all managed wanted).map Role.name :=
      fun hd => ((mem_dropped_names hs.reads.key).mp hd).unwanted hin
    refine ⟨c, ?_, hsync, hconfig⟩
    rw [hget, if_neg hstay, hc, Option.map_some, hs.forget_eq (o.sub 3) hw hsync]
  have hothers : ∀ name : String, name ∉ wanted →
      (Dropped all managed wanted name → name ∉ cat₂) ∧
      (¬ Dropped all managed wanted name → cat₂[name]? =
        cat[name]?.map (forget ((dropped (o.sub 3) all managed wanted).map Role.name))) := by
    intro name hname
    constructor
    · intro hdrop
      rw [Dict.not_mem_iff, hget, if_pos ((mem_dropped_names hs.reads.key).mpr hdrop)]
    · intro hkept
      rw [hget, if_neg (fun h => hkept ((mem_dropped_names hs.reads.key).mp h)),
        hp.rest name (fun h => hname ((hnames name).mp h))]
  refine ⟨queries, cat₂, hstage, hexec, hsynced, hothers, ?_⟩
  intro o' all' managed' fallbackOwner' dbs' defaultDatabase' hread hmanaged
  have hstill : ∀ (name : String) (w : Role), wanted[name]? = some w →
      ∃ c, cat₂[name]? = some c ∧ Synced cols w c := by
    intro name w hw
    obtain ⟨c, hc, hsync, _⟩ := hsynced name w hw
    exact ⟨c, hc, hsync⟩
  refine stage_synced hread hs.key hacyclic hstill (fun name hdrop => ?_) o' fallbackOwner' dbs'
    defaultDatabase'
  have hm : name ∈ managed := (hmanaged name hdrop.managed).resolve_right hdrop.unwanted
  have hnow : name ∈ cat₂ := (hread.mem name).mp hdrop.present
  by_cases hd₁ : Dropped all managed wanted name
  · exact (hothers name hdrop.unwanted).1 hd₁ hnow
  · have hbefore : name ∈ cat := by
      obtain ⟨c, hc⟩ := Dict.mem_iff.mp hnow
      rw [(hothers name hdrop.unwanted).2 hd₁] at hc
      obtain ⟨c', hc', _⟩ := Option.map_eq_some_iff.mp hc
      exact Dict.mem_iff.mpr ⟨c', hc'⟩
    exact hd₁ ⟨hm, hdrop.unwanted, hdrop.notPublic, (hs.reads.mem name).mpr hbefore⟩

/-! An instance where `alice` is a member of `old`, and is wanted in a new role
`staff` instead. -/

def aliceStored : Stored where
  options := {}
  memberships := {{ grantor := "postgres", name := "old" }}
  comment := ""
  config := ∅

def oldStored : Stored where
  options := {}
  memberships := ∅
  comment := ""
  config := ∅

def aliceCatalog : Catalog := ((∅ : Catalog).insert "old" oldStored).insert "alice" aliceStored

def aliceInspected : RoleMap := .ofRoles
  [{ name := "old", config := some ∅ },
   { name := "alice", parents := [{ grantor := "postgres", name := "old" }], config := some ∅ }]

def aliceWanted : RoleMap := .ofRoles
  [{ name := "staff" }, { name := "alice", parents := [{ name := "staff" }] }]

theorem alice_reads : Reads (fun _ => true) aliceCatalog aliceInspected := by
  refine ⟨RoleMap.keyIsName_ofRoles _, ?_, ?_⟩
  · intro name
    simp [aliceInspected, aliceCatalog, RoleMap.ofRoles, Dict.fill]
  · intro name r c hr hc
    simp only [aliceInspected, aliceCatalog, RoleMap.ofRoles, Dict.fill, List.foldl_cons,
      List.foldl_nil, Dict.get_insert] at hr hc
    split at hc
    case isTrue he =>
      rw [if_pos he] at hr
      cases hr; cases hc
      exact ⟨fun _ _ => rfl, fun m => by simp [aliceStored], rfl, rfl⟩
    case isFalse he =>
      rw [if_neg he] at hr
      split at hc
      case isTrue ho =>
        rw [if_pos ho] at hr
        cases hr; cases hc
        exact ⟨fun _ _ => rfl, fun m => by simp [oldStored], rfl, rfl⟩
      case isFalse => simp at hc

theorem alice_situation :
    Situation (fun _ => true) aliceCatalog aliceInspected aliceInspected aliceWanted := by
  have hcases : ∀ (name : String) (w : Role), aliceWanted[name]? = some w →
      w = { name := "alice", parents := [{ name := "staff" }] } ∨ w = { name := "staff" } := by
    intro name w hw
    rcases Dict.get_fill_cases hw with ⟨r, hr, _, rfl⟩ | hw
    · simpa [or_comm] using hr
    · simp at hw
  refine ⟨alice_reads, RoleMap.keyIsName_ofRoles _, ⟨Order.sorted, by decide⟩, ?_, ?_⟩
  · intro name w hw
    rcases hcases name w hw with rfl | rfl
    · exact ⟨rfl, rfl⟩
    · exact ⟨rfl, rfl⟩
  · intro name w hw p hp
    rcases hcases name w hw with rfl | rfl
    · left
      obtain rfl : p = "staff" := by simpa using hp
      decide
    · cases hp

def postgresDatabase : DBMap := .single { name := "postgres", owner := "postgres" }

theorem alice_converges :
    ∃ queries cat', stage (fun _ => true) Order.sorted aliceInspected aliceInspected aliceWanted
        "postgres" postgresDatabase "postgres" = some queries ∧
      execAll (fun _ _ => "postgres") aliceCatalog (queries.map SyncQuery.stmt) = some cat' ∧
      "old" ∉ cat' := by
  have hd : "postgres" ∈ postgresDatabase.map := by decide
  obtain ⟨queries, cat', hstage, hexec, _, hothers, _⟩ := role_stage_converges alice_situation
    (fun _ _ => "postgres") Order.sorted "postgres" postgresDatabase hd
  exact ⟨queries, cat', hstage, hexec,
    (hothers "old" (by decide)).1 ⟨by decide, by decide, by decide, by decide⟩⟩

end Ldap2pg.Roles.Converge
