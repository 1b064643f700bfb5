import Ldap2pg.Privileges.Store

/-! # Privileges converge in one run

The grants of rules have the fields of their ACL and no other, so that a grant
read back from the server is the one that was wanted. One `Sync` then leaves the
wanted grants, whole, and nothing for the next one to do. -/
namespace Ldap2pg.Privileges.Converge
open Lib Pyfmt Postgres Ldap

variable {g e : Grant}

/-! ## The statements of one run on a store -/

section Statements
variable {k : Kind}

theorem execAll_diff (s : Store k) (current wanted : List Grant) :
    s.execAll (diff current wanted) =
      (wanted.filter fun g => !current.contains g &&
        !current.contains { g with grantee := "public", type := "" }).foldl Store.grant
      ((current.filter fun g =>
        !(wanted.contains { g with isPartial := false } || g.type == "")).foldl Store.revoke s) := by
  simp only [Store.execAll, diff, List.foldl_append, List.foldl_map]
  rfl

theorem mem_revokes (gs : List Grant) : ∀ {s : Store k} {r : Row},
    r ∈ (gs.foldl Store.revoke s).rows ↔
      r ∈ s.rows ∧ ∀ g ∈ gs, r.full ≠ (k.rowOf g).full := by
  induction gs with
  | nil => intro s r; simp
  | cons g gs ih =>
    intro s r
    rw [List.foldl_cons, ih, List.forall_mem_cons, ← and_assoc]
    exact and_congr_left' Store.mem_without

theorem mem_grant {s : Store k} (htype : g.type ≠ "") (hmark : s.onMark g = false) {r : Row} :
    r ∈ (s.grant g).rows ↔
      (r ∈ s.rows ∧ r.full ≠ (k.rowOf g).full) ∨ r = (k.rowOf g).full := by
  rw [Store.grant, dif_pos ⟨htype, hmark⟩]
  exact List.mem_append.trans (or_congr Store.mem_without List.mem_singleton)

theorem grant_onMark {s : Store k} (hmark : s.onMark g = true) : s.grant g = s :=
  dif_neg fun h => by rw [hmark] at h; cases h.2

/-- Granting neither sets nor removes a mark. -/
theorem mark_mem_grant {s : Store k} (htype : g.type ≠ "") (schema : String) :
    .mark schema ∈ (s.grant g).rows ↔ .mark schema ∈ s.rows := by
  cases hmark : s.onMark g with
  | true => rw [grant_onMark hmark]
  | false =>
    have hne : Row.mark schema ≠ (k.rowOf g).full := by
      intro he
      have ht := congrArg Row.type he
      rw [Row.mark_type, Row.full_type, Kind.rowOf_type] at ht
      exact htype ht.symm
    rw [mem_grant htype hmark, Row.mark_full]
    exact ⟨fun h => (h.resolve_right hne).1, fun h => .inl ⟨h, hne⟩⟩

theorem onMark_congr {s s' : Store k}
    (h : ∀ schema, .mark schema ∈ s'.rows ↔ .mark schema ∈ s.rows) (g : Grant) :
    s'.onMark g = s.onMark g := by
  unfold Store.onMark
  cases (k.rowOf g).onSchema with
  | none => rfl
  | some schema => exact decide_eq_decide.mpr (h schema)

theorem mark_mem_grants (gs : List Grant) (htype : ∀ g ∈ gs, g.type ≠ "") : ∀ {s : Store k}
    (schema : String), .mark schema ∈ (gs.foldl Store.grant s).rows ↔ .mark schema ∈ s.rows := by
  induction gs with
  | nil => intro s schema; rfl
  | cons g gs ih =>
    intro s schema
    rw [List.foldl_cons, ih (fun g hg => htype g (List.mem_cons_of_mem _ hg)),
      mark_mem_grant (htype g List.mem_cons_self)]

theorem mem_grants (gs : List Grant) (htype : ∀ g ∈ gs, g.type ≠ "") : ∀ {s : Store k} {r : Row},
    r ∈ (gs.foldl Store.grant s).rows ↔
      (r ∈ s.rows ∧ ∀ g ∈ gs, s.onMark g = false → r.full ≠ (k.rowOf g).full) ∨
        ∃ g ∈ gs, s.onMark g = false ∧ r = (k.rowOf g).full := by
  induction gs with
  | nil => intro s r; simp
  | cons g gs ih =>
    intro s r
    have htg := htype g List.mem_cons_self
    have hsame : ∀ g', (s.grant g).onMark g' = s.onMark g' := onMark_congr (mark_mem_grant htg)
    rw [List.foldl_cons, ih fun g hg => htype g (List.mem_cons_of_mem _ hg)]
    simp only [hsame, List.mem_cons, forall_eq_or_imp, exists_eq_or_imp]
    cases hmark : s.onMark g with
    | true => rw [grant_onMark hmark]; simp
    | false =>
      rw [mem_grant htg hmark]
      simp only [forall_const, true_and]
      constructor
      · rintro (⟨⟨hr, hne⟩ | rfl, hrest⟩ | hex)
        · exact .inl ⟨hr, hne, hrest⟩
        · exact .inr (.inl rfl)
        · exact .inr (.inr hex)
      · rintro (⟨hr, hne, hrest⟩ | rfl | hex)
        · exact .inl ⟨.inl ⟨hr, hne⟩, hrest⟩
        · -- a later grant of the same row writes it again
          by_cases hlater : ∃ g' ∈ gs, s.onMark g' = false ∧ (k.rowOf g).full = (k.rowOf g').full
          · exact .inr hlater
          · refine .inl ⟨.inr rfl, fun g' hg' hm he => hlater ⟨g', hg', hm, ?_⟩⟩
            rw [← he, Row.full_full]
        · exact .inr hex

end Statements

/-! ## The grants of rules -/

section Rules
variable {reg : Registry} {dbs : DBMap} {database : Database} {k : Kind} {a : ACL}

/-- Some rule generates the grant from some result. -/
def Generated (reg : Registry) (g : Grant) : Prop :=
  ∃ (env : Env) (o : Order) (rule : GrantRule) (results : Result) (grants : List Grant),
    rule.generate env reg o results = .ok grants ∧ g ∈ grants

/-- The privileges of the profiles name a type. -/
def Typed (reg : Registry) : Prop :=
  ∀ (name : String) (profile : List Privilege), reg.profiles[name]? = some profile →
    ∀ priv ∈ profile, priv.type ≠ ""

theorem generated_grant (h : Generated reg g) :
    ∃ (env : Env) (rule : GrantRule) (values : Option Values) (name : String) (profile : _),
      reg.profiles[name]? = some profile ∧
      ∃ priv ∈ profile, GrantRule.grant env reg rule values priv = .ok g := by
  obtain ⟨env, o, rule, results, grants, hgen, hg⟩ := h
  obtain ⟨lists, hlists, hgen⟩ := bind_eq_ok.mp hgen
  cases hgen
  obtain ⟨l, hl, hg⟩ := List.mem_flatten.mp hg
  obtain ⟨values, _, hvalues⟩ := mem_of_mapM_ok hlists hl
  obtain ⟨name, _, hmap⟩ := bind_eq_ok.mp hvalues
  obtain ⟨priv, hpriv, hgrant⟩ := mem_of_mapM_ok hmap hg
  cases hprofile : reg.profiles[name]? with
  | none => rw [hprofile] at hpriv; cases hpriv
  | some profile =>
    rw [hprofile] at hpriv
    exact ⟨env, rule, values, name, profile, hprofile, priv, hpriv, hgrant⟩

/-- The fields of the grant of a rule. -/
structure Fields (a : ACL) (g : Grant) : Prop where
  owner : a.uses "owner" = false → g.owner = ""
  schema : a.uses "schema" = false → g.schema = ""
  object : a.uses "object" = false → g.object = ""
  database : a.scope = "instance" → a.uses "database" = false → g.database = ""
  whole : g.isPartial = false

theorem grant_fields {env : Env} {rule : GrantRule} {values : Option Values} {priv : Privilege}
    (h : rule.grant env reg values priv = .ok g) :
    g.acl = priv.on ∧ g.type = priv.type ∧ Fields (reg.acl priv.on) g := by
  obtain ⟨grantee, _, h⟩ := bind_eq_ok.mp h
  obtain ⟨owner, howner, h⟩ := bind_eq_ok.mp h
  obtain ⟨schema, hschema, h⟩ := bind_eq_ok.mp h
  obtain ⟨database, hdatabase, h⟩ := bind_eq_ok.mp h
  cases h
  refine ⟨rfl, rfl, fun hu => ?_, fun hu => ?_, fun hu => ?_, fun hs hu => ?_, rfl⟩
  · rw [hu] at howner; cases howner; rfl
  · rw [hu] at hschema; cases hschema; rfl
  · exact if_neg (by rw [hu]; decide)
  · rw [hs, hu] at hdatabase; cases hdatabase; rfl

/-- The keywords `__all__` and `__auto__` stand in the fields that the ACL has. -/
theorem fields_of_expands (hf : Fields a g) (hx : Expands reg dbs database g e) : Fields a e := by
  refine ⟨fun hu => ?_, fun hu => ?_, fun hu => ?_, fun hs hu => ?_, ?_⟩
  · have howner := hx.byOwner
    rw [hf.owner hu, if_neg (by decide)] at howner
    exact howner
  · have hschema := hx.inSchema
    rw [hf.schema hu, if_neg (by decide)] at hschema
    exact hschema
  · rw [hx.same]
    exact hf.object hu
  · have hdatabase := hx.inDatabase
    rw [hf.database hs hu, if_neg (by decide)] at hdatabase
    exact hdatabase.2
  · rw [hx.same]
    exact hf.whole

theorem database_of_expands (hreg : reg.acl a.name = a) (hacl : g.acl = a.name)
    (hx : Expands reg dbs database g e) (hscope : a.scope ≠ "instance") :
    e.database = database.name := by
  refine hx.database_eq ?_
  rw [Registry.instanceWide, hacl, hreg]
  exact beq_false_of_ne hscope

/-- What a rule wants is read back from the server as it is. -/
theorem shaped_of_expands (ha : a.IsA k) (hreg : reg.acl a.name = a) (hacl : g.acl = a.name)
    (hf : Fields a g) (hx : Expands reg dbs database g e) : k.Shaped a.name database.name e := by
  have hfields := fields_of_expands hf hx
  refine ⟨by rw [hx.same, hacl], fun hu => ?_, fun hu => ?_, fun hu => ?_, ?_, hfields.whole⟩
  · exact hfields.owner ((congrArg Placeholders.owner ha.uses).trans hu)
  · exact hfields.schema ((congrArg Placeholders.schema ha.uses).trans hu)
  · exact hfields.object ((congrArg Placeholders.object ha.uses).trans hu)
  · split
    case isTrue hwide =>
      intro hu
      exact hfields.database (ha.scope.mpr hwide)
        ((congrArg Placeholders.database ha.uses).trans hu)
    case isFalse hwide =>
      exact database_of_expands hreg hacl hx fun hscope => hwide (ha.scope.mp hscope)

end Rules

/-! ## One run -/

section Run
variable {dbs : DBMap} {database : Database} {roles : List String} {k : Kind} {acl : String}

/-- What is known of the expanded grants. -/
structure Wants (k : Kind) (acl : String) (roles : List String) (dbs : DBMap) (database : Database)
    (wanted : List Grant) : Prop where
  shaped : ∀ e ∈ wanted, k.Shaped acl database.name e
  typed : ∀ e ∈ wanted, e.type ≠ ""
  seen : ∀ e ∈ wanted, Seen roles dbs database e

/-- The current grants are those seen in the store. -/
def Reports (acl : String) (roles : List String) (dbs : DBMap) (database : Database) (s : Store k)
    (current : List Grant) : Prop :=
  ∀ g, g ∈ current ↔ ∃ r ∈ s.rows, g = k.grantOf acl database.name r ∧ Seen roles dbs database g

theorem inspect_store {reg : Registry} {a : ACL} (ha : a.IsA k) (hreg : reg.acl a.name = a)
    (hdb : database.name ∈ dbs.map) (roles : List String) (s : Store k) :
    ∃ current, inspect reg dbs database a.name roles (.ok s.rows) = .ok current ∧
      Reports a.name roles dbs database s current :=
  inspect_rows ha hreg hdb roles s.fits

section Facts
variable {s : Store k} {current wanted : List Grant}

theorem seen_whole : Seen roles dbs database { g with isPartial := false } ↔
    Seen roles dbs database g :=
  ⟨fun h => ⟨⟨h.scope.owner, h.scope.schema, h.scope.database⟩, h.grantee⟩,
    fun h => ⟨⟨h.scope.owner, h.scope.schema, h.scope.database⟩, h.grantee⟩⟩

theorem rowOf_mem (hc : Reports acl roles dbs database s current) (hg : g ∈ current) :
    k.rowOf g ∈ s.rows ∧ g = k.grantOf acl database.name (k.rowOf g) := by
  obtain ⟨r, hr, hgr, _⟩ := (hc g).mp hg
  have hrow : k.rowOf g = r := by rw [hgr]; exact Kind.rowOf_grantOf (s.fits r hr)
  rw [hrow]
  exact ⟨hr, hgr⟩

/-- The test of the second loop of `diff` is whether the schema is marked. -/
theorem wildcard_iff (hw : Wants k acl roles dbs database wanted)
    (hc : Reports acl roles dbs database s current) (he : e ∈ wanted) :
    { e with grantee := "public", type := "" } ∈ current ↔ s.onMark e = true := by
  obtain ⟨hacl, howner, hschema, hobject, hdatabase, hwhole⟩ := hw.shaped e he
  constructor
  · intro hwild
    obtain ⟨hrow, _⟩ := rowOf_mem hc hwild
    obtain ⟨schema, hmark⟩ := s.typed _ hrow (by rw [Kind.rowOf_type])
    cases k <;> first
      | (simp only [Store.onMark, Kind.rowOf, Row.onSchema, decide_eq_true_eq]
         simp only [Kind.rowOf, Row.mark, hwhole] at hrow hmark ⊢
         exact hrow)
      | cases hmark
  · intro hmark
    cases k <;> first
      | (simp only [Store.onMark, Kind.rowOf, Row.onSchema, decide_eq_true_eq] at hmark
         refine (hc _).mpr ⟨_, hmark, ?_, ?_⟩
         · simp only [Kind.grantOf, Row.mark]
           rw [howner rfl, hobject rfl, hacl, hwhole]
           simp only [Kind.instanceWide] at hdatabase
           simpa using hdatabase
         · have hseen := (hw.seen e he).scope
           exact ⟨⟨hseen.owner, hseen.schema, hseen.database⟩, fun h => absurd rfl h⟩)
      | cases hmark

/-- `diff` revokes the grant. -/
def Spurious (current wanted : List Grant) (g : Grant) : Prop :=
  g ∈ current ∧ { g with isPartial := false } ∉ wanted ∧ g.type ≠ ""

/-- `diff` grants it. -/
def Missing (s : Store k) (current wanted : List Grant) (e : Grant) : Prop :=
  e ∈ wanted ∧ e ∉ current ∧ s.onMark e = false

/-- What `diff` does to the marks: nothing. -/
theorem mark_mem_run (hw : Wants k acl roles dbs database wanted) (schema : String) :
    .mark schema ∈ (s.execAll (diff current wanted)).rows ↔ .mark schema ∈ s.rows := by
  rw [execAll_diff, mark_mem_grants _ fun g hg => hw.typed g (List.mem_filter.mp hg).1, mem_revokes]
  refine ⟨fun h => h.1, fun h => ⟨h, fun g hg he => ?_⟩⟩
  have htype : g.type ≠ "" := by
    intro ht
    simp [ht] at hg
  have ht := congrArg Row.type he
  rw [Row.full_type, Row.mark_type, Row.full_type, Kind.rowOf_type] at ht
  exact htype ht.symm

/-- Being seen does not depend on the grant being whole. -/
theorem full_ne_of_seen {r : Row} (hout : ¬ Seen roles dbs database (k.grantOf acl database.name r))
    (hg : g = k.grantOf acl database.name (k.rowOf g)) (hseen : Seen roles dbs database g) :
    r.full ≠ (k.rowOf g).full := by
  intro he
  refine hout (seen_whole.mp ?_)
  rw [← Kind.grantOf_full, he, Kind.grantOf_full, ← hg]
  exact seen_whole.mpr hseen

section Synced
variable (hw : Wants k acl roles dbs database wanted)
  (hc : Reports acl roles dbs database s current)
include hw hc

/-- **What `diff` does to the rows.** -/
theorem mem_run {r : Row} :
    r ∈ (s.execAll (diff current wanted)).rows ↔
      (r ∈ s.rows ∧ (∀ g, Spurious current wanted g → r.full ≠ (k.rowOf g).full) ∧
        ∀ e, Missing s current wanted e → r.full ≠ (k.rowOf e).full) ∨
      ∃ e, Missing s current wanted e ∧ r = (k.rowOf e).full := by
  have hspurious : ∀ g, g ∈ (current.filter fun g =>
      !(wanted.contains { g with isPartial := false } || g.type == "")) ↔
      Spurious current wanted g := by
    intro g
    simp [Spurious]
  have hmissing : ∀ e, (e ∈ (wanted.filter fun g => !current.contains g &&
      !current.contains { g with grantee := "public", type := "" }) ∧ s.onMark e = false) ↔
      Missing s current wanted e := by
    intro e
    unfold Missing
    by_cases he : e ∈ wanted
    · have hwild := wildcard_iff hw hc he
      simp [he, hwild]
    · simp [he]
  -- revoking does not change the marks, so the grants find those of the start
  have hmarks : ∀ e, ((current.filter fun g =>
      !(wanted.contains { g with isPartial := false } || g.type == "")).foldl
        Store.revoke s).onMark e = s.onMark e := by
    refine onMark_congr fun schema => ?_
    rw [mem_revokes]
    refine ⟨fun h => h.1, fun h => ⟨h, fun g hg he => ?_⟩⟩
    have ht := congrArg Row.type he
    rw [Row.full_type, Row.mark_type, Row.full_type, Kind.rowOf_type] at ht
    exact ((hspurious g).mp hg).2.2 ht.symm
  rw [execAll_diff, mem_grants _ fun g hg => hw.typed g (List.mem_filter.mp hg).1, mem_revokes]
  simp only [hmarks, hspurious, ← hmissing, and_imp, and_assoc]

theorem wanted_present (he : e ∈ wanted) :
    k.rowOf e ∈ (s.execAll (diff current wanted)).rows ∨
      (s.execAll (diff current wanted)).onMark e = true := by
  have hfull : (k.rowOf e).full = k.rowOf e := by
    have hwhole := (hw.shaped e he).whole
    rw [Kind.rowOf_full]
    congr 1
    rw [← hwhole]
  by_cases hmark : s.onMark e = true
  · right
    rw [onMark_congr (mark_mem_run hw), hmark]
  · left
    rw [mem_run hw hc]
    by_cases hcur : e ∈ current
    · obtain ⟨hrow, _⟩ := rowOf_mem hc hcur
      by_cases hagain : ∃ e', Missing s current wanted e' ∧ k.rowOf e = (k.rowOf e').full
      · exact .inr hagain
      · refine .inl ⟨hrow, fun g hg hkey => ?_, fun e' he' hkey => hagain ⟨e', he', hfull ▸ hkey⟩⟩
        -- a current grant on the same row is this one, which is wanted
        obtain ⟨hgrow, hgg⟩ := rowOf_mem hc hg.1
        have hsame := s.eq_of_full hrow hgrow hkey
        obtain ⟨_, heg⟩ := rowOf_mem hc hcur
        have hge : g = e := by rw [hgg, ← hsame, ← heg]
        refine hg.2.1 ?_
        rw [hge, ← (hw.shaped e he).whole]
        exact he
    · exact .inr ⟨e, ⟨he, hcur, by simpa using hmark⟩, hfull.symm⟩

/-- What is seen of the rows after the run is wanted. -/
theorem seen_wanted {r : Row}
    (hr : r ∈ (s.execAll (diff current wanted)).rows)
    (hseen : Seen roles dbs database (k.grantOf acl database.name r)) (htype : r.type ≠ "") :
    k.grantOf acl database.name r ∈ wanted := by
  rcases (mem_run hw hc).mp hr with ⟨hold, hkept, hfree⟩ | ⟨e, he, rfl⟩
  · have hfits := s.fits r hold
    have hcur : k.grantOf acl database.name r ∈ current := (hc _).mpr ⟨r, hold, rfl, hseen⟩
    have hfull : { k.grantOf acl database.name r with isPartial := false } ∈ wanted := by
      by_contra hnot
      refine hkept _ ⟨hcur, hnot, by rwa [Kind.grantOf_type hfits]⟩ ?_
      rw [Kind.rowOf_grantOf hfits]
    rw [← Kind.grantOf_full] at hfull
    have hrow : k.rowOf (k.grantOf acl database.name r.full) = r.full :=
      Kind.rowOf_grantOf (Kind.fits_full hfits)
    -- if it were partial, the whole grant would be missing
    by_cases hwhole : r.full = r
    · rwa [hwhole] at hfull
    · exfalso
      refine hfree _ ⟨hfull, fun hin => hwhole ?_, ?_⟩ (by rw [hrow, Row.full_full])
      · have hin := (rowOf_mem hc hin).1
        rw [hrow] at hin
        exact s.eq_of_full hin hold (Row.full_full r)
      · rw [Store.onMark_eq_false, hrow]
        intro schema hon hmark
        have hmark' := s.marked schema hmark r hold (by rw [← hon]; cases r <;> rfl)
        exact htype (by rw [hmark', Row.mark_type])
  · have hshape := hw.shaped e he.1
    rw [Kind.grantOf_full, Kind.grantOf_rowOf hshape, ← hshape.whole]
    exact he.1

theorem outside_unchanged {r : Row}
    (hout : ¬ Seen roles dbs database (k.grantOf acl database.name r)) :
    r ∈ (s.execAll (diff current wanted)).rows ↔ r ∈ s.rows := by
  have hspurious : ∀ g, Spurious current wanted g → r.full ≠ (k.rowOf g).full := by
    intro g hg
    obtain ⟨_, _, _, hseen⟩ := (hc g).mp hg.1
    exact full_ne_of_seen hout (rowOf_mem hc hg.1).2 hseen
  have hmissing : ∀ e, Missing s current wanted e → r.full ≠ (k.rowOf e).full :=
    fun e he => full_ne_of_seen hout (Kind.grantOf_rowOf (hw.shaped e he.1)).symm (hw.seen e he.1)
  rw [mem_run hw hc]
  refine ⟨fun h => ?_, fun h => .inl ⟨h, hspurious, hmissing⟩⟩
  rcases h with ⟨h, _⟩ | ⟨e, he, hre⟩
  · exact h
  · exact absurd (by rw [hre, Row.full_full]) (hmissing e he)

/-- Nothing is left to do. -/
theorem diff_run_eq_nil {current' wanted' : List Grant}
    (hc' : Reports acl roles dbs database (s.execAll (diff current wanted)) current')
    (hsame : ∀ e, e ∈ wanted' ↔ e ∈ wanted) : diff current' wanted' = [] := by
  have hnone : ∀ stmt, stmt ∉ (diff current' wanted').map SyncQuery.stmt := by
    intro stmt hmem
    cases stmt with
    | revoke g =>
      obtain ⟨hg, hnot, htype⟩ := revoke_mem_diff.mp hmem
      obtain ⟨r, hr, rfl, hseen⟩ := (hc' g).mp hg
      rw [Kind.grantOf_type ((s.execAll _).fits r hr)] at htype
      have hin := seen_wanted hw hc hr hseen htype
      refine hnot ((hsame _).mpr ?_)
      rw [← (hw.shaped _ hin).whole]
      exact hin
    | grant e =>
      obtain ⟨he, hnot, hwild⟩ := grant_mem_diff.mp hmem
      have hin := (hsame e).mp he
      rcases wanted_present hw hc hin with hrow | hmark
      · exact hnot ((hc' e).mpr
          ⟨_, hrow, (Kind.grantOf_rowOf (hw.shaped e hin)).symm, hw.seen e hin⟩)
      · exact hwild ((wildcard_iff hw hc' hin).mpr hmark)
  exact List.map_eq_nil_iff.mp (List.eq_nil_iff_forall_not_mem.mpr hnone)

end Synced

end Facts

end Run

section Stage
variable {reg : Registry} {dbs : DBMap} {o : Order} {database : Database} {dbname : String}
  {roles : List String} {a : ACL} {wanted expanded : List Grant}

theorem wants_expanded (ha : a ∈ builtinACLs) (hacl : reg.acl a.name = a) (htyped : Typed reg)
    (hgen : ∀ g ∈ wanted, Generated reg g ∧ g.acl = a.name)
    (hexpand : expand reg dbs o wanted database = .ok expanded)
    (hscope : ∀ e ∈ expanded, e.grantee ∈ roles ∧ InScope roles dbs database e) :
    Wants a.kind a.name roles dbs database expanded := by
  have hgrant : ∀ e ∈ expanded, a.kind.Shaped a.name database.name e ∧ e.type ≠ "" := by
    intro e he
    obtain ⟨g, hg, hx⟩ := (mem_expand hexpand).mp he
    obtain ⟨hgenerated, hga⟩ := hgen g hg
    obtain ⟨env, rule, values, name, profile, hprofile, priv, hpriv, hgrant⟩ :=
      generated_grant hgenerated
    obtain ⟨hon, htype, hfields⟩ := grant_fields hgrant
    rw [← hon, hga, hacl] at hfields
    refine ⟨shaped_of_expands (isA_kind a ha) hacl hga hfields hx, ?_⟩
    rw [hx.same]
    exact htype ▸ htyped name profile hprofile priv hpriv
  exact ⟨fun e he => (hgrant e he).1, fun e he => (hgrant e he).2,
    fun e he => ⟨(hscope e he).2, fun _ => (hscope e he).1⟩⟩

theorem sync_eq_diff (hdb : dbs.map[dbname]? = some database)
    (hexpand : expand reg dbs o wanted database = .ok expanded) (current : List Grant) :
    sync reg dbs o dbname current wanted = .ok (diff current expanded) := by
  rw [sync, databaseOf, hdb, Option.getD_some, hexpand]
  rfl

/-- In another order of the maps `Sync` compares with the same grants. -/
theorem exists_sync_eq_diff (hdb : dbs.map[dbname]? = some database)
    (hname : database.name ∈ dbs.map) (hexpand : expand reg dbs o wanted database = .ok expanded)
    (o' : Order) (current : List Grant) : ∃ expanded',
      sync reg dbs o' dbname current wanted = .ok (diff current expanded') ∧
      ∀ e, e ∈ expanded' ↔ e ∈ expanded := by
  obtain ⟨expanded', hexpand'⟩ := expand_ok reg o' wanted hname
  refine ⟨expanded', sync_eq_diff hdb hexpand' current, fun e => ?_⟩
  rw [mem_expand hexpand', mem_expand hexpand]

end Stage

/-- **Synchronising the privileges of an ACL converges.** Take a built-in ACL, what
the server has of it, a managed database and grants of rules whose expansion is
managed. After one `Sync` the next one has nothing to do, in whatever order it
meets the maps; what is inspected is wanted and whole, marks apart; what is
wanted is there or on a marked schema; and the rest is as it was. -/
theorem privileges_converge {reg : Registry} {dbs : DBMap} {o : Order} {database : Database}
    {dbname : String} {roles : List String} {a : ACL} {s : Store a.kind}
    {wanted expanded : List Grant} (ha : a ∈ builtinACLs) (hreg : reg.acls[a.name]? = some a)
    (hdb : dbs.map[dbname]? = some database) (htyped : Typed reg)
    (hgen : ∀ g ∈ wanted, Generated reg g ∧ g.acl = a.name)
    (hexpand : expand reg dbs o wanted database = .ok expanded)
    (hscope : ∀ e ∈ expanded, e.grantee ∈ roles ∧ InScope roles dbs database e) :
    ∃ current queries current',
      inspect reg dbs database a.name roles (.ok s.rows) = .ok current ∧
      sync reg dbs o dbname current wanted = .ok queries ∧
      inspect reg dbs database a.name roles (.ok (s.execAll queries).rows) = .ok current' ∧
      (∀ o', sync reg dbs o' dbname current' wanted = .ok []) ∧
      (∀ g ∈ current', g.type ≠ "" → g ∈ expanded ∧ g.isPartial = false) ∧
      (∀ e ∈ expanded, a.kind.rowOf e ∈ (s.execAll queries).rows ∨
        (s.execAll queries).onMark e = true) ∧
      ∀ r, ¬ Seen roles dbs database (a.kind.grantOf a.name database.name r) →
        (r ∈ (s.execAll queries).rows ↔ r ∈ s.rows) := by
  have hisa := isA_kind a ha
  have hacl : reg.acl a.name = a := by rw [Registry.acl, hreg]; rfl
  have hname : database.name ∈ dbs.map :=
    Dict.mem_iff.mpr ⟨database, by rw [dbs.key dbname database hdb, hdb]⟩
  have hw := wants_expanded ha hacl htyped hgen hexpand hscope
  obtain ⟨current, hcurrent, hc⟩ := inspect_store hisa hacl hname roles s
  obtain ⟨current', hcurrent', hc'⟩ :=
    inspect_store hisa hacl hname roles (s.execAll (diff current expanded))
  refine ⟨current, _, current', hcurrent, sync_eq_diff hdb hexpand current, hcurrent',
    fun o' => ?_, fun g hg htype => ?_,
    fun e he => wanted_present hw hc he, fun r hout => outside_unchanged hw hc hout⟩
  · obtain ⟨expanded', hsync, hsame⟩ := exists_sync_eq_diff hdb hname hexpand o' current'
    rw [hsync, diff_run_eq_nil hw hc hc' hsame]
  · obtain ⟨r, hr, rfl, hseen⟩ := (hc' g).mp hg
    rw [Kind.grantOf_type ((s.execAll _).fits r hr)] at htype
    have hin := seen_wanted hw hc hr hseen htype
    exact ⟨hin, (hw.shaped _ hin).whole⟩

/-! `bob` reads the tables of a schema, `alice` some of them, and another schema has
none. -/
open Ldap.Sample Sample

def tables : ACL := onSchema "ALL TABLES IN SCHEMA"

def someTables : Store tables.kind where
  rows := [.ofDatabase "SELECT" "public" "bob" false, .ofDatabase "SELECT" "public" "alice" true,
    .mark "empty"]
  fits := by decide
  keyed := by decide
  typed := by
    intro r hr htype
    simp only [List.mem_cons, List.not_mem_nil, or_false] at hr
    rcases hr with rfl | rfl | rfl
    · exact absurd htype (by decide)
    · exact absurd htype (by decide)
    · exact ⟨"empty", rfl⟩
  marked := by
    intro schema hm r hr hon
    simp only [Row.mark, List.mem_cons, List.not_mem_nil, or_false, Row.ofDatabase.injEq] at hm
    simp only [List.mem_cons, List.not_mem_nil, or_false] at hr
    obtain rfl : schema = "empty" := by simpa using hm
    rcases hr with rfl | rfl | rfl
    · exact absurd hon (by decide)
    · exact absurd hon (by decide)
    · rfl

theorem tables_typed : Typed (registry "SELECT" tables.name) := by
  intro name profile hprofile priv hpriv
  rcases Dict.get_insert_cases hprofile with ⟨_, rfl⟩ | ⟨_, h⟩
  · rw [List.mem_singleton.mp hpriv]
    decide
  · simp at h

theorem tables_generated : ∀ g ∈ [wanted "SELECT" tables.name "__all__"],
    Generated (registry "SELECT" tables.name) g ∧ g.acl = tables.name := by
  intro g hg
  rw [List.mem_singleton.mp hg]
  exact ⟨⟨env, Order.sorted, rule "__all__", {}, _, by rfl, List.mem_singleton.mpr rfl⟩, rfl⟩

theorem tables_expand : ∃ expanded,
    expand (registry "SELECT" tables.name) onlyApp Order.sorted
      [wanted "SELECT" tables.name "__all__"] app = .ok expanded ∧
    ∀ e ∈ expanded, e.grantee ∈ ["alice", "bob"] ∧ InScope ["alice", "bob"] onlyApp app e := by
  obtain ⟨expanded, hexpand, hscope⟩ : ∃ expanded,
      expand (registry "SELECT" tables.name) onlyApp Order.sorted
        [wanted "SELECT" tables.name "__all__"] app = .ok expanded ∧
      ∀ e ∈ expanded, e.grantee = "alice" ∧ e.owner = "" ∧ e.schema ∈ app.schemas ∧
        e.database ∈ onlyApp.map := ⟨_, rfl, by decide⟩
  refine ⟨expanded, hexpand, fun e he => ?_⟩
  obtain ⟨hgrantee, howner, hschema, hdatabase⟩ := hscope e he
  exact ⟨by simp [hgrantee], .inl howner, .inr hschema, .inr hdatabase⟩

/-- With `SELECT` wanted for `alice` only, one run is enough. -/
theorem tables_converge :
    ∃ current queries current',
      inspect (registry "SELECT" tables.name) onlyApp app tables.name ["alice", "bob"]
        (.ok someTables.rows) = .ok current ∧
      sync (registry "SELECT" tables.name) onlyApp Order.sorted "app" current
        [wanted "SELECT" tables.name "__all__"] = .ok queries ∧
      inspect (registry "SELECT" tables.name) onlyApp app tables.name ["alice", "bob"]
        (.ok (someTables.execAll queries).rows) = .ok current' ∧
      ∀ o, sync (registry "SELECT" tables.name) onlyApp o "app" current'
        [wanted "SELECT" tables.name "__all__"] = .ok [] := by
  obtain ⟨expanded, hexpand, hscope⟩ := tables_expand
  have ha : tables ∈ builtinACLs := by simp [builtinACLs, tables]
  have hdb : onlyApp.map["app"]? = some app := rfl
  obtain ⟨current, queries, current', hcurrent, hqueries, hcurrent', hquiet, _⟩ :=
    privileges_converge (s := someTables) ha rfl hdb tables_typed tables_generated hexpand
      hscope
  exact ⟨current, queries, current', hcurrent, hqueries, hcurrent', hquiet⟩

end Ldap2pg.Privileges.Converge
