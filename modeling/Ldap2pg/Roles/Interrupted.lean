import Ldap2pg.Lib.Commands
import Ldap2pg.Roles.Converge

/-! # An interrupted role stage

Statements fail and are skipped, too many errors end `Apply`, the server goes away:
of the statements of a stage, some take effect. `Towards` is what any of them can do
to the catalogue, role by role. It composes, so it also holds over several such
runs, each with an inspection of its own. From it follows what holds in the meantime,
and that what a complete run needs is still there. -/
namespace Ldap2pg.Roles.Interrupted
open Lib Lib.Commands Postgres Roles.Catalog Roles.Converge
open Relation

variable {grantor : String → String → String}

/-- The role may be dropped: a managed role that is not wanted. -/
structure Droppable (managed wanted : RoleMap) (name : String) : Prop where
  managed : name ∈ managed
  unwanted : name ∉ wanted
  notPublic : name ≠ "public"

theorem droppable_of_dropped {all managed wanted : RoleMap} {name : String}
    (h : Dropped all managed wanted name) : Droppable managed wanted name :=
  ⟨h.managed, h.unwanted, h.notPublic⟩

/-! ## The statements of a stage -/

/-- The statements that a stage can send, hooks apart. -/
inductive Sent (cols : Columns) (managed wanted : RoleMap) : Stmt → Prop
  | create {name : String} {w : Role} (hw : wanted[name]? = some w) :
      Sent cols managed wanted (.create name (w.options.clauses cols) w.parentNames)
  | alterOptions {name : String} {w : Role} (hw : wanted[name]? = some w) (columns : List Column) :
      Sent cols managed wanted (.alterOptions name (columns.map fun c => (c, w.options.get c)))
  | grantParents {name : String} {w : Role} {parents : List String} (hw : wanted[name]? = some w)
      (hp : ∀ p ∈ parents, p ∈ w.parentNames) : Sent cols managed wanted (.grantParents parents name)
  | revokeParent {name : String} {w : Role} {m : Membership} (hw : wanted[name]? = some w)
      (hm : m.name ∉ w.parentNames) : Sent cols managed wanted (.revokeParent m.name name m.grantor)
  | comment {name : String} {w : Role} (hw : wanted[name]? = some w) (text : String) :
      Sent cols managed wanted (.comment name text)
  | resetConfig {name : String} {w : Role} (hw : wanted[name]? = some w) (key : String) :
      Sent cols managed wanted (.resetConfig name key)
  | setConfig {name : String} {w : Role} (hw : wanted[name]? = some w) (key value : String) :
      Sent cols managed wanted (.setConfig name key value)
  | initConfig {name : String} {w : Role} (hw : wanted[name]? = some w) (key value : String) :
      Sent cols managed wanted (.initConfig name key value)
  | neutral {stmt : Stmt} (h : neutral stmt = true) : Sent cols managed wanted stmt
  | noLogin {name : String} (h : Droppable managed wanted name) :
      Sent cols managed wanted (.noLogin name)
  | drop {name : String} (h : Droppable managed wanted name) : Sent cols managed wanted (.drop name)

section Sent
variable {cols : Columns} {o : Order} {all managed wanted : RoleMap} {name : String} {r w : Role}

theorem sent_alterConfig (hw : wanted[name]? = some w) (hname : r.name = name) {q : Query}
    (hq : q ∈ r.alterConfig o w) : Sent cols managed wanted q.stmt := by
  unfold Role.alterConfig at hq
  split at hq
  · cases hq
  · rcases List.mem_append.mp hq with hq | hq
    · obtain ⟨k, _, hk⟩ := List.mem_filterMap.mp hq
      split at hk
      · cases hk; exact hname ▸ .resetConfig hw k
      · split at hk
        · cases hk
        · cases hk; exact hname ▸ .setConfig hw k _
    · obtain ⟨k, _, rfl⟩ := List.mem_map.mp hq
      exact hname ▸ .setConfig hw k _

theorem sent_alter (hw : wanted[name]? = some w) (hname : r.name = name) {q : Query}
    (hq : q ∈ r.alter cols o w) : Sent cols managed wanted q.stmt := by
  unfold Role.alter at hq
  simp only [List.mem_append] at hq
  rcases hq with (((hq | hq) | hq) | hq) | hq
  · split at hq
    · rw [List.mem_singleton.mp hq, hname]
      exact .alterOptions hw _
    · cases hq
  · split at hq
    · rw [List.mem_singleton.mp hq, hname]
      exact .grantParents hw fun p hp => (mem_missingParents_names.mp hp).1
    · cases hq
  · obtain ⟨m, hm, rfl⟩ := List.mem_map.mp hq
    exact hname ▸ .revokeParent hw (mem_missingParents.mp hm).2
  · split at hq
    · rw [List.mem_singleton.mp hq, hname]
      exact .comment hw _
    · cases hq
  · exact sent_alterConfig hw hname hq

theorem sent_create (hw : wanted[name]? = some w) (hname : w.name = name)
    (hhooks : w.beforeCreate = "" ∧ w.afterCreate = "") {q : Query} (hq : q ∈ w.create cols o) :
    Sent cols managed wanted q.stmt := by
  unfold Role.create at hq
  simp only [List.mem_append, hhooks.1, hhooks.2, ne_eq, not_true_eq_false, if_false,
    List.not_mem_nil, false_or, or_false] at hq
  rcases hq with hq | hq
  · rcases List.mem_cons.mp hq with rfl | hq
    · exact hname ▸ .create hw
    · rw [List.mem_singleton.mp hq, hname]
      exact .comment hw _
  · split at hq
    · cases hq
    · obtain ⟨k, _, rfl⟩ := List.mem_map.mp hq
      exact hname ▸ .initConfig hw k _

theorem sent_drop {fallbackOwner : String} {databases : List String} {q : Query}
    (h : Droppable managed wanted r.name) (hq : DropQuery r fallbackOwner databases q) :
    Sent cols managed wanted q.stmt := by
  cases hq with
  | terminate => exact .neutral rfl
  | alterDatabase => exact .neutral rfl
  | reassign => exact .neutral rfl
  | noLogin => exact .noLogin h
  | drop => exact .drop h

theorem sent_stage {fallbackOwner defaultDatabase : String} {dbs : DBMap} {queries : List Query}
    (hall : KeyIsName all) (hkey : KeyIsName wanted) (hacyclic : Map.Acyclic wanted)
    (hhooks : ∀ (name : String) (w : Role), wanted[name]? = some w →
      w.beforeCreate = "" ∧ w.afterCreate = "")
    (h : stage cols o all managed wanted fallbackOwner dbs defaultDatabase = some queries)
    {stmt : Stmt} (hstmt : stmt ∈ queries.map SyncQuery.stmt) : Sent cols managed wanted stmt := by
  obtain ⟨q', hq', rfl⟩ := List.mem_map.mp hstmt
  obtain ⟨out, hdiff, hgroup⟩ := stage_eq_some h
  obtain ⟨q, hq, rfl⟩ := List.mem_map.mp ((mem_groupByDatabase hgroup).mp hq').1
  obtain ⟨names, hnames, hout⟩ := diff_eq_some hdiff
  obtain ⟨names', hnames', _, hmem⟩ := flatten_spec hkey hacyclic (o.sub 0)
  cases hnames.symm.trans hnames'
  show Sent cols managed wanted q.stmt
  rw [hout] at hq
  rcases List.mem_append.mp hq with hq | hq
  · obtain ⟨ni, hni, hq⟩ := List.mem_flatMap.mp hq
    obtain ⟨w, hw⟩ := Dict.mem_iff.mp ((hmem ni.1).mp (List.fst_mem_of_mem_zipIdx hni))
    unfold upsert at hq
    rw [hw] at hq
    cases ha : all[ni.1]? with
    | some r => rw [ha] at hq; exact sent_alter hw (hall ni.1 r ha) hq
    | none => rw [ha] at hq; exact sent_create hw (hkey ni.1 w hw) (hhooks ni.1 w hw) hq
  · obtain ⟨r, hr, hdrop⟩ := mem_drops hq
    obtain ⟨name, hdropped, hr⟩ := mem_dropped.mp hr
    have hname : r.name = name := hall name r hr
    exact sent_drop (hname ▸ droppable_of_dropped hdropped) hdrop

end Sent

/-! ## What the statements can do -/

/-- From one catalogue to another, no further than the wanted roles. -/
structure Towards (cols : Columns) (managed wanted : RoleMap) (cat cat' : Catalog) : Prop where
  /-- a wanted role keeps its wanted parents -/
  kept : ∀ {name : String} {c : Stored} {w : Role}, cat[name]? = some c → wanted[name]? = some w →
    ∃ c', cat'[name]? = some c' ∧ ∀ m ∈ c.memberships, m.name ∈ w.parentNames → m ∈ c'.memberships
  /-- new memberships are wanted -/
  memberships : ∀ {name : String} {c' : Stored} {m : Membership}, cat'[name]? = some c' →
    m ∈ c'.memberships → (∃ c, cat[name]? = some c ∧ m ∈ c.memberships) ∨
      ∃ w, wanted[name]? = some w ∧ m.name ∈ w.parentNames
  /-- an option that changes gets its wanted value, or a role to drop loses its login -/
  options : ∀ {name : String} {c' : Stored} {col : Column}, cat'[name]? = some c' →
    cols col = true → (∃ c, cat[name]? = some c ∧ c'.options.get col = c.options.get col) ∨
      (∃ w, wanted[name]? = some w ∧ c'.options.get col = w.options.get col) ∨
      (Droppable managed wanted name ∧ col = .rolcanlogin ∧ c'.options.get col = .bool false)
  /-- new roles are wanted -/
  roles : ∀ {name : String}, name ∈ cat' → name ∈ cat ∨ name ∈ wanted
  gone : ∀ {name : String}, name ∈ cat → name ∉ cat' → Droppable managed wanted name
  /-- the other roles can only lose memberships in roles that were dropped -/
  others : ∀ {name : String} {c' : Stored}, name ∉ wanted → ¬ Droppable managed wanted name →
    cat'[name]? = some c' → ∃ c, cat[name]? = some c ∧ c'.options = c.options ∧
      c'.comment = c.comment ∧ c'.config = c.config

section Towards
variable {cols : Columns} {managed wanted : RoleMap} {cat cat₁ cat₂ : Catalog} {name : String}
  {w : Role}

theorem Towards.refl (cat : Catalog) : Towards cols managed wanted cat cat where
  kept hc _ := ⟨_, hc, fun _ hm _ => hm⟩
  memberships hc hm := .inl ⟨_, hc, hm⟩
  options hc _ := .inl ⟨_, hc, rfl⟩
  roles := .inl
  gone h h' := absurd h h'
  others _ _ hc := ⟨_, hc, rfl, rfl, rfl⟩

theorem Towards.trans (h : Towards cols managed wanted cat cat₁)
    (h' : Towards cols managed wanted cat₁ cat₂) : Towards cols managed wanted cat cat₂ where
  kept hc hw := by
    obtain ⟨c₁, hc₁, hkept⟩ := h.kept hc hw
    obtain ⟨c₂, hc₂, hkept'⟩ := h'.kept hc₁ hw
    exact ⟨c₂, hc₂, fun m hm hp => hkept' m (hkept m hm hp) hp⟩
  memberships hc hm := by
    rcases h'.memberships hc hm with ⟨c₁, hc₁, hm₁⟩ | hnew
    · exact h.memberships hc₁ hm₁
    · exact .inr hnew
  options hc hcol := by
    rcases h'.options hc hcol with ⟨c₁, hc₁, he⟩ | hnew
    · rw [he]
      exact h.options hc₁ hcol
    · exact .inr hnew
  roles hin := by
    rcases h'.roles hin with hin | hnew
    · exact h.roles hin
    · exact .inr hnew
  gone {k} hin hout := by
    by_cases hmid : k ∈ cat₁
    · exact h'.gone hmid hout
    · exact h.gone hin hmid
  others hw hd hc := by
    obtain ⟨c₁, hc₁, ho, hm, hg⟩ := h'.others hw hd hc
    obtain ⟨c, hc, ho', hm', hg'⟩ := h.others hw hd hc₁
    exact ⟨c, hc, ho.trans ho', hm.trans hm', hg.trans hg'⟩

/-- One role is created or changed. -/
theorem towards_insert {c' : Stored}
    (hmay : name ∈ wanted ∨ name ∈ cat ∧ Droppable managed wanted name)
    (hkept : ∀ c w, cat[name]? = some c → wanted[name]? = some w →
      ∀ m ∈ c.memberships, m.name ∈ w.parentNames → m ∈ c'.memberships)
    (hnew : ∀ m ∈ c'.memberships, (∃ c, cat[name]? = some c ∧ m ∈ c.memberships) ∨
      ∃ w, wanted[name]? = some w ∧ m.name ∈ w.parentNames)
    (hopt : ∀ col, cols col = true →
      (∃ c, cat[name]? = some c ∧ c'.options.get col = c.options.get col) ∨
      (∃ w, wanted[name]? = some w ∧ c'.options.get col = w.options.get col) ∨
      (Droppable managed wanted name ∧ col = .rolcanlogin ∧ c'.options.get col = .bool false)) :
    Towards cols managed wanted cat (cat.insert name c') where
  kept {k c w} hc hw := by
    rw [Dict.get_insert]
    split
    case isTrue he => subst he; exact ⟨c', rfl, hkept c w hc hw⟩
    case isFalse => exact ⟨c, hc, fun _ hm _ => hm⟩
  memberships {k c m} hc hm := by
    rw [Dict.get_insert] at hc
    split at hc
    case isTrue he => subst he; cases hc; exact hnew m hm
    case isFalse => exact .inl ⟨c, hc, hm⟩
  options {k c col} hc hcol := by
    rw [Dict.get_insert] at hc
    split at hc
    case isTrue he => subst he; cases hc; exact hopt col hcol
    case isFalse => exact .inl ⟨c, hc, rfl⟩
  roles {k} hk := by
    rcases Std.ExtTreeMap.mem_insert.mp hk with he | hk
    · cases Std.LawfulEqCmp.eq_of_compare he
      exact hmay.symm.imp And.left id
    · exact .inl hk
  gone hk hout := absurd (Std.ExtTreeMap.mem_insert.mpr (.inr hk)) hout
  others {k c} hw hd hc := by
    have he : name ≠ k := by
      rintro rfl
      exact hmay.elim hw fun h => hd h.2
    rw [Dict.get_insert, if_neg he] at hc
    exact ⟨c, hc, rfl, rfl, rfl⟩

/-- A change of one wanted role. -/
theorem towards_alter {f : Stored → Stored} (hw : wanted[name]? = some w)
    (h : cat.alterRole name f = some cat₁)
    (hkept : ∀ c, ∀ m ∈ c.memberships, m.name ∈ w.parentNames → m ∈ (f c).memberships)
    (hnew : ∀ c, ∀ m ∈ (f c).memberships, m ∈ c.memberships ∨ m.name ∈ w.parentNames)
    (hopt : ∀ c col, (f c).options.get col = c.options.get col ∨
      (f c).options.get col = w.options.get col) : Towards cols managed wanted cat cat₁ := by
  obtain ⟨c, hc, rfl⟩ := Option.map_eq_some_iff.mp h
  refine towards_insert (.inl (Dict.mem_iff.mpr ⟨w, hw⟩)) (fun c' w' hc' hw' => ?_)
    (fun m hm => (hnew c m hm).imp (fun hm => ⟨c, hc, hm⟩) fun hp => ⟨w, hw, hp⟩)
    fun col _ => (hopt c col).imp (fun he => ⟨c, hc, he⟩) fun he => .inl ⟨w, hw, he⟩
  cases hc.symm.trans hc'
  cases hw.symm.trans hw'
  exact hkept c

theorem towards_create (hw : wanted[name]? = some w) (hnew : name ∉ cat) :
    Towards cols managed wanted cat (cat.insert name
      { options := (w.options.clauses cols).foldl Options.set defaultOptions
        memberships := (w.parentNames.map (membership grantor name)).toFinset
        comment := ""
        config := ∅ }) := by
  refine towards_insert (.inl (Dict.mem_iff.mpr ⟨w, hw⟩))
    (fun c _ hc => absurd (Dict.mem_iff.mpr ⟨c, hc⟩) hnew) (fun m hm => ?_) fun col hcol => ?_
  · obtain ⟨p, hp, rfl⟩ := List.mem_map.mp (List.mem_toFinset.mp hm)
    exact .inr ⟨w, hw, hp⟩
  · have hget := Options.get_foldl_set w.options col (Column.all.filter cols) defaultOptions
    exact .inr (.inl ⟨w, hw, hget.trans (if_pos (List.mem_filter.mpr ⟨col.mem_all, hcol⟩))⟩)

theorem towards_grants (hw : wanted[name]? = some w) (parents : List String)
    (hp : ∀ p ∈ parents, p ∈ w.parentNames) : ∀ {cat cat₁ : Catalog},
      parents.foldlM (grantParent grantor name) cat = some cat₁ →
        Towards cols managed wanted cat cat₁ := by
  induction parents with
  | nil => intro cat cat₁ h; cases h; exact .refl cat
  | cons p parents ih =>
    intro cat cat₁ h
    rw [List.foldlM_cons] at h
    obtain ⟨cat', hgrant, hrest⟩ := Option.bind_eq_some_iff.mp h
    have hone : Towards cols managed wanted cat cat' := by
      unfold grantParent at hgrant
      split at hgrant
      case isTrue =>
        refine towards_alter hw hgrant (fun _ m hm _ => Finset.mem_insert_of_mem hm)
          (fun c m hm => ?_) fun _ _ => .inl rfl
        rcases Finset.mem_insert.mp hm with rfl | hm
        · exact .inr (hp p List.mem_cons_self)
        · exact .inl hm
      case isFalse => cases hgrant
    exact hone.trans (ih (fun q hq => hp q (List.mem_cons_of_mem _ hq)) hrest)

theorem towards_noLogin (hd : Droppable managed wanted name)
    (h : cat.alterRole name (fun c => { c with options := { c.options with canLogin := false } }) =
      some cat₁) : Towards cols managed wanted cat cat₁ := by
  obtain ⟨c, hc, rfl⟩ := Option.map_eq_some_iff.mp h
  refine towards_insert (.inr ⟨Dict.mem_iff.mpr ⟨c, hc⟩, hd⟩)
    (fun _ w _ hw => absurd (Dict.mem_iff.mpr ⟨w, hw⟩) hd.unwanted)
    (fun m hm => .inl ⟨c, hc, hm⟩) fun col _ => ?_
  by_cases hcol : col = .rolcanlogin
  · exact .inr (.inr ⟨hd, hcol, by rw [hcol]; rfl⟩)
  · exact .inl ⟨c, hc, by cases col <;> first | rfl | exact absurd rfl hcol⟩

theorem dropRole_get (cat : Catalog) (name k : String) :
    (cat.dropRole name)[k]? = if name = k then none else cat[k]?.map fun c =>
      { c with memberships := c.memberships.filter fun m => m.name ≠ name } := by
  rw [dropRole, Std.ExtTreeMap.getElem?_map, Dict.get_erase]
  split <;> rfl

/-- Dropping a role that no wanted role is wanted in. -/
theorem towards_drop (hd : Droppable managed wanted name)
    (hstay : ∀ (k : String) (w : Role), wanted[k]? = some w → name ∉ w.parentNames) :
    Towards cols managed wanted cat (cat.dropRole name) := by
  have hget : ∀ {k : String} {c' : Stored}, (cat.dropRole name)[k]? = some c' →
      ∃ c, cat[k]? = some c ∧ c' =
        { c with memberships := c.memberships.filter fun m => m.name ≠ name } := by
    intro k c' hc'
    rw [dropRole_get] at hc'
    split at hc'
    · cases hc'
    · obtain ⟨c, hc, rfl⟩ := Option.map_eq_some_iff.mp hc'
      exact ⟨c, hc, rfl⟩
  refine ⟨?_, ?_, ?_, ?_, ?_, ?_⟩
  · intro k c w hc hw
    have he : name ≠ k := fun he => hd.unwanted (he ▸ Dict.mem_iff.mpr ⟨w, hw⟩)
    refine ⟨_, by rw [dropRole_get, if_neg he, hc]; rfl, fun m hm hp => ?_⟩
    exact Finset.mem_filter.mpr ⟨hm, fun hn => hstay k w hw (hn ▸ hp)⟩
  · intro k c' m hc' hm
    obtain ⟨c, hc, rfl⟩ := hget hc'
    exact .inl ⟨c, hc, (Finset.mem_filter.mp hm).1⟩
  · intro k c' col hc' _
    obtain ⟨c, hc, rfl⟩ := hget hc'
    exact .inl ⟨c, hc, rfl⟩
  · intro k hk
    obtain ⟨c', hc'⟩ := Dict.mem_iff.mp hk
    obtain ⟨c, hc, _⟩ := hget hc'
    exact .inl (Dict.mem_iff.mpr ⟨c, hc⟩)
  · intro k hk hout
    obtain ⟨c, hc⟩ := Dict.mem_iff.mp hk
    by_cases he : name = k
    · exact he ▸ hd
    · exact absurd (Dict.mem_iff.mpr ⟨_, by rw [dropRole_get, if_neg he, hc]; rfl⟩) hout
  · intro k c' _ _ hc'
    obtain ⟨c, hc, rfl⟩ := hget hc'
    exact ⟨c, hc, rfl, rfl, rfl⟩

/-- Every statement of a stage goes towards the wanted roles, if it goes through. -/
theorem towards_exec {stmt : Stmt} (hsent : Sent cols managed wanted stmt)
    (hstay : ∀ (k : String) (w : Role), wanted[k]? = some w → ∀ p ∈ w.parentNames, ¬ Droppable
    managed wanted p) (h : exec grantor cat stmt = some cat₁) :
    Towards cols managed wanted cat cat₁ := by
  cases hsent with
  | create hw =>
    rw [exec] at h
    split at h
    case isTrue hnew => cases h; exact towards_create hw hnew.1
    case isFalse => cases h
  | @alterOptions name w hw columns =>
    refine towards_alter hw h (fun _ _ hm _ => hm) (fun _ _ => .inl) fun c col => ?_
    have hget := Options.get_foldl_set w.options col columns c.options
    split at hget
    case isTrue => exact .inr hget
    case isFalse => exact .inl hget
  | grantParents hw hp => exact towards_grants hw _ hp h
  | @revokeParent name w m hw hm =>
    refine towards_alter hw h (fun c m' hm' hp => Finset.mem_erase.mpr ⟨fun he => ?_, hm'⟩)
      (fun _ _ hm' => .inl (Finset.mem_of_mem_erase hm')) fun _ _ => .inl rfl
    rw [he] at hp
    exact hm hp
  | comment hw text =>
    exact towards_alter hw h (fun _ _ hm _ => hm) (fun _ _ => .inl) fun _ _ => .inl rfl
  | resetConfig hw key =>
    exact towards_alter hw h (fun _ _ hm _ => hm) (fun _ _ => .inl) fun _ _ => .inl rfl
  | setConfig hw key value =>
    exact towards_alter hw h (fun _ _ hm _ => hm) (fun _ _ => .inl) fun _ _ => .inl rfl
  | initConfig hw key value =>
    exact towards_alter hw h (fun _ _ hm _ => hm) (fun _ _ => .inl) fun _ _ => .inl rfl
  | neutral hneutral =>
    have hsame : exec grantor cat stmt = some cat := by
      cases stmt <;> first | rfl | cases hneutral
    cases hsame.symm.trans h
    exact .refl cat
  | noLogin hd => exact towards_noLogin hd h
  | drop hd =>
    rw [exec] at h
    split at h
    case isTrue =>
      cases h
      exact towards_drop hd fun k w hw hp => hstay k w hw _ hp hd
    case isFalse => cases h

end Towards

/-! ## Interrupted runs -/

/-- A run inspects the roles, computes its queries, and some of them get through. The roles it finds
managed may be fewer than at the start. -/
def Attempt (cols : Columns) (grantor : String → String → String) (managed wanted : RoleMap)
    (cat cat' : Catalog) : Prop :=
  ∃ o all managed' fallbackOwner dbs defaultDatabase queries, Reads cols cat all ∧
    (∀ name ∈ managed', name ∈ managed ∨ name ∈ wanted) ∧
    stage cols o all managed' wanted fallbackOwner dbs defaultDatabase = some queries ∧
    Partly (exec grantor) cat (queries.map SyncQuery.stmt) cat'

section Attempts
variable {cols : Columns} {grantor : String → String → String} {managed wanted : RoleMap}
  {all : RoleMap} {cat cat' : Catalog}

theorem Sent.mono {managed' : RoleMap} {stmt : Stmt} (h : Sent cols managed' wanted stmt)
    (hsub : ∀ name ∈ managed', name ∈ managed ∨ name ∈ wanted) : Sent cols managed wanted stmt := by
  have hdroppable : ∀ {name}, Droppable managed' wanted name → Droppable managed wanted name :=
    fun hd => ⟨(hsub _ hd.managed).resolve_right hd.unwanted, hd.unwanted, hd.notPublic⟩
  cases h with
  | create hw => exact .create hw
  | alterOptions hw columns => exact .alterOptions hw columns
  | grantParents hw hp => exact .grantParents hw hp
  | revokeParent hw hm => exact .revokeParent hw hm
  | comment hw text => exact .comment hw text
  | resetConfig hw key => exact .resetConfig hw key
  | setConfig hw key value => exact .setConfig hw key value
  | initConfig hw key value => exact .initConfig hw key value
  | neutral h => exact .neutral h
  | noLogin hd => exact .noLogin (hdroppable hd)
  | drop hd => exact .drop (hdroppable hd)

theorem situation_acyclic (h : Situation cols cat all managed wanted) : Map.Acyclic wanted := by
  obtain ⟨o, hcheck⟩ := h.checked
  exact (check_eq_none_iff h.key o).mp hcheck

/-- A wanted parent is not dropped. -/
theorem situation_stay (h : Situation cols cat all managed wanted) (k : String) (w : Role)
    (hw : wanted[k]? = some w) (p : String) (hp : p ∈ w.parentNames) :
    ¬ Droppable managed wanted p := by
  intro hd
  rcases h.parents k w hw p hp with hin | ⟨hcat, hkept, _⟩
  · exact hd.unwanted hin
  · exact hkept ⟨hd.managed, hd.unwanted, hd.notPublic, (h.reads.mem p).mpr hcat⟩

theorem attempt_towards {cat₁ : Catalog} (h : Situation cols cat all managed wanted)
    (hattempt : Attempt cols grantor managed wanted cat' cat₁) :
    Towards cols managed wanted cat' cat₁ := by
  obtain ⟨o, all', managed', fallbackOwner, dbs, defaultDatabase, queries, hreads, hsub, hstage,
    hpartly⟩ := hattempt
  refine hpartly.rel Towards.refl Towards.trans fun stmt hstmt _ _ hexec => ?_
  have hsent : Sent cols managed' wanted stmt :=
    sent_stage hreads.key h.key (situation_acyclic h) h.hooks hstage hstmt
  exact towards_exec (hsent.mono hsub) (situation_stay h) hexec

theorem attempts_towards (h : Situation cols cat all managed wanted)
    (hrun : ReflTransGen (Attempt cols grantor managed wanted) cat cat') :
    Towards cols managed wanted cat cat' := by
  induction hrun with
  | refl => exact .refl cat
  | tail _ hlast ih => exact ih.trans (attempt_towards h hlast)

/-- Who is a member of whom in the meantime: along memberships of the start and wanted ones. -/
theorem reaches_between (h : Towards cols managed wanted cat cat') {x y : String}
    (hxy : cat'.Reaches x y) :
    ReflTransGen (fun a b => b ∈ cat.parentNames a ∨ b ∈ wanted.parentNames a) x y := by
  refine ReflTransGen.mono (fun a b hab => ?_) x y hxy
  obtain ⟨c', hc', m, hm, hname⟩ := hab
  rcases h.memberships hc' hm with ⟨c, hc, hm⟩ | ⟨w, hw, hp⟩
  · exact .inl ⟨c, hc, m, hm, hname⟩
  · refine .inr ?_
    rw [RoleMap.parentNames, hw]
    exact hname ▸ hp

/-- From a role that is not wanted no more is reached than before. -/
theorem reaches_towards (h : Towards cols managed wanted cat cat') {p : String}
    (hfree : ∀ x ∈ wanted, ¬ cat.Reaches p x) {y : String} (hy : cat'.Reaches p y) :
    cat.Reaches p y := by
  induction hy with
  | refl => exact .refl
  | tail _ hstep ih =>
    obtain ⟨c', hc', m, hm, hname⟩ := hstep
    rcases h.memberships hc' hm with ⟨c, hc, hm⟩ | ⟨w, hw, _⟩
    · exact ih.tail ⟨c, hc, m, hm, hname⟩
    · exact absurd ih (hfree _ (Dict.mem_iff.mpr ⟨w, hw⟩))

/-- What a complete run needs is still there. -/
theorem situation_towards {all' managed' : RoleMap} (h : Situation cols cat all managed wanted)
    (htowards : Towards cols managed wanted cat cat') (hreads : Reads cols cat' all')
    (hsub : ∀ name ∈ managed', name ∈ managed ∨ name ∈ wanted) :
    Situation cols cat' all' managed' wanted := by
  refine ⟨hreads, h.key, h.checked, h.hooks, fun name w hw p hp => ?_⟩
  refine (h.parents name w hw p hp).imp_right fun ⟨hcat, _, hfree⟩ => ⟨?_, fun hdropped => ?_, ?_⟩
  · by_contra hgone
    exact situation_stay h name w hw p hp (htowards.gone hcat hgone)
  · refine situation_stay h name w hw p hp ⟨?_, hdropped.unwanted, hdropped.notPublic⟩
    exact (hsub p hdropped.managed).resolve_right hdropped.unwanted
  · exact fun x hx hreach => hfree x hx (reaches_towards htowards hfree hreach)

/-- A complete run. -/
theorem situation_run (grantor : String → String → String)
    (h : Situation cols cat all managed wanted) (o : Order)
    (fallbackOwner : String) (dbs : DBMap) {defaultDatabase : String}
    (hd : defaultDatabase ∈ dbs.map) :
    ∃ queries cat',
      stage cols o all managed wanted fallbackOwner dbs defaultDatabase = some queries ∧
      execAll grantor cat (queries.map SyncQuery.stmt) = some cat' ∧
      (∀ (name : String) (w : Role), wanted[name]? = some w →
        ∃ c, cat'[name]? = some c ∧ Synced cols w c) ∧
      ∀ name, Dropped all managed wanted name → name ∉ cat' := by
  obtain ⟨queries, names, hstage, htop, hnames, hstmts⟩ :=
    stage_exec cols all managed h.key (situation_acyclic h) o fallbackOwner dbs hd
  obtain ⟨cat₁, hups, hp⟩ := upserts_run grantor h htop hnames (o.sub 1) names.zipIdx [] cat
    (by rw [List.zipIdx_map_fst]; rfl) ⟨fun _ h => absurd h List.not_mem_nil, fun _ _ => rfl⟩
  have hpresent : ∀ name ∈ (dropped (o.sub 3) all managed wanted).map Role.name, name ∈ cat₁ := by
    intro name hname
    have hdrop := (mem_dropped_names h.reads.key).mp hname
    have hnot : name ∉ names := fun hin => hdrop.unwanted ((hnames name).mp hin)
    rw [Dict.mem_iff, hp.rest name hnot, ← Dict.mem_iff, ← h.reads.mem]
    exact hdrop.present
  obtain ⟨cat₂, hdrops, hget⟩ := exec_drops grantor _ cat₁
    (nodup_dropped_names (o.sub 3) managed wanted h.reads.key) hpresent
  refine ⟨queries, cat₂, hstage, ?_, fun name w hw => ?_, fun name hdrop => ?_⟩
  · rw [← execAll_effective, hstmts, execAll_append, execAll_effective, upserts, hups,
      Option.bind_some, hdrops]
  · have hin : name ∈ wanted := Dict.mem_iff.mpr ⟨w, hw⟩
    obtain ⟨c, hc, hsync, _⟩ := hp.synced name ((hnames name).mpr hin) w hw
    have hstays : name ∉ (dropped (o.sub 3) all managed wanted).map Role.name :=
      fun hd => ((mem_dropped_names h.reads.key).mp hd).unwanted hin
    exact ⟨c, by rw [hget, if_neg hstays, hc, Option.map_some, h.forget_eq (o.sub 3) hw hsync], hsync⟩
  · rw [Dict.not_mem_iff, hget, if_pos ((mem_dropped_names h.reads.key).mpr hdrop)]

end Attempts

/-! ## A run that stops after its first statement -/

/-- An inspection of the catalogue. -/
noncomputable def inspection (cat : Catalog) : RoleMap :=
  cat.map fun name c =>
    { name, options := c.options, parents := c.memberships.toList, comment := c.comment,
      config := some c.config }

theorem reads_inspection (cols : Columns) (cat : Catalog) : Reads cols cat (inspection cat) := by
  have hget : ∀ name : String, (inspection cat)[name]? = cat[name]?.map fun c =>
      { name, options := c.options, parents := c.memberships.toList, comment := c.comment,
        config := some c.config } := fun name => Std.ExtTreeMap.getElem?_map
  refine ⟨fun name r hr => ?_, fun name => ?_, fun name r c hr hc => ?_⟩
  · rw [hget] at hr
    obtain ⟨c, _, rfl⟩ := Option.map_eq_some_iff.mp hr
    rfl
  · simp [Dict.mem_iff, hget]
  · rw [hget, hc] at hr
    cases hr
    exact ⟨fun _ _ => rfl, fun m => Finset.mem_toList, rfl, rfl⟩

theorem alice_stopped : ∃ queries cat',
    stage (fun _ => true) Order.sorted aliceInspected aliceInspected aliceWanted "postgres"
      postgresDatabase "postgres" = some queries ∧
    execAll (fun _ _ => "postgres") aliceCatalog ((queries.map SyncQuery.stmt).take 1) = some cat' ∧
    ReflTransGen (Attempt (fun _ => true) (fun _ _ => "postgres") aliceInspected aliceWanted)
      aliceCatalog cat' := by
  obtain ⟨queries, cat₂, hstage, hexec, _⟩ := situation_run (fun _ _ => "postgres")
    alice_situation Order.sorted "postgres" postgresDatabase
    (by decide : "postgres" ∈ postgresDatabase.map)
  rw [← List.take_append_drop 1 (queries.map SyncQuery.stmt), execAll_append] at hexec
  obtain ⟨cat₁, hfirst, _⟩ := Option.bind_eq_some_iff.mp hexec
  refine ⟨queries, cat₁, hstage, hfirst, .single ⟨Order.sorted, aliceInspected, aliceInspected,
    "postgres", postgresDatabase, "postgres", queries, alice_reads, fun _ => .inl, hstage, ?_⟩⟩
  rw [← List.take_append_drop 1 (queries.map SyncQuery.stmt)]
  exact .stopped _ _ hfirst

end Ldap2pg.Roles.Interrupted
