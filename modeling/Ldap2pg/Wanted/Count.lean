import Ldap2pg.Ldap.Values
import Ldap2pg.Wanted.Rules

/-! # How many roles a rule generates

The formats of the role take their values together, each parent on its own. An
entry gives no value to formats without a field, so that a rule whose parents only
are injected generates no role at all. -/
namespace Ldap2pg.Wanted.Count
open Lib Pyfmt Ldap Roles

/-- The formats of the role itself. -/
def headFormats (r : RoleRule) : List Format := [r.name, r.comment, r.beforeCreate, r.afterCreate]

/-- The number of elements in the product of the values of the attributes. -/
def productSize (env : Env) (entry : Entry) (fmts : List Format) : Nat :=
  ((attributesOf (expressionsOf fmts)).map fun a => (attributeValues env entry "" [] a).length).prod

/-- One role for each element of the product. -/
def expectedHeads (env : Env) (entry : Entry) (r : RoleRule) : List Head :=
  (expectedValues env entry (headFormats r)).map fun values =>
    { name := r.name.render env.toStrings values
      comment := r.comment.render env.toStrings values
      options := r.options
      beforeCreate := r.beforeCreate.render env.toStrings values
      afterCreate := r.afterCreate.render env.toStrings values }

/-- The memberships that one parent stands for: every combination of values if it has a
field. -/
def expectedParent (env : Env) (entry : Entry) (m : Format) : List Membership :=
  if m.isStatic then [{ name := m.string }]
  else (expectedValues env entry [m]).map fun values => { name := m.render env.toStrings values }

def expectedParents (env : Env) (entry : Entry) (r : RoleRule) : List Membership :=
  r.parents.flatMap (expectedParent env entry)

section Count
variable {env : Env} {o : Order} {entry : Entry} {r : RoleRule}

theorem length_expectedHeads :
    (expectedHeads env entry r).length = productSize env entry (headFormats r) := by
  rw [expectedHeads, List.length_map, expectedValues, List.length_map, length_choices]
  rfl

theorem generateParent_static {results : Result} {m : Format} (h : m.isStatic = true) :
    generateParent env o results m = .ok [{ name := m.string }] := by
  unfold generateParent
  cases results.entry with
  | none => rw [format_none_static h]; rfl
  | some entry => simp only [h, if_true, format_none_static h]; rfl

theorem generateParent_dynamic {results : Result} (hentry : results.entry = some entry) {m : Format}
    (h : m.isStatic = false) : generateParent env o results m =
      .ok ((results.generateValues env o entry [m]).map fun values =>
        { name := m.render env.toStrings values }) := by
  unfold generateParent
  simp only [hentry, h, Bool.false_eq_true, if_false, format_some]
  exact mapM_ok_iff.mpr (List.forall₂_map_right_iff.mpr (List.forall₂_same.mpr fun _ _ => rfl))

theorem generateParent_perm (m : Format) :
    ∃ l, generateParent env o { entry := some entry } m = .ok l ∧
      l.Perm (expectedParent env entry m) := by
  unfold expectedParent
  cases hstatic : m.isStatic with
  | true => exact ⟨_, generateParent_static hstatic, .refl _⟩
  | false => exact ⟨_, generateParent_dynamic rfl hstatic,
      (generateValues_perm rfl o ⟨m, List.mem_singleton_self m, hstatic⟩).map _⟩

theorem generateParents_perm (env : Env) (o : Order) (entry : Entry) (r : RoleRule) :
    ∃ l, r.generateParents env o { entry := some entry } = .ok l ∧
      l.Perm (expectedParents env entry r) := by
  obtain ⟨outs, houts, hperm⟩ := exists_mapM_perm (l := r.parents.zipIdx)
    (g := fun mi => expectedParent env entry mi.1) fun mi _ =>
      generateParent_perm (o := o.sub mi.2) mi.1
  refine ⟨outs.flatten, by rw [RoleRule.generateParents, houts]; rfl, ?_⟩
  rwa [expectedParents, ← flatMap_zipIdx_fst]

theorem generateHeads_perm (o : Order) (h : ∃ f ∈ headFormats r, f.isStatic = false) :
    (r.generateHeads env o { entry := some entry }).Perm (expectedHeads env entry r) :=
  (generateValues_perm rfl o h).map _

/-- Without a field there is no value, and one role to expect. -/
theorem static_heads (env : Env) (o : Order) (entry : Entry) (h : ∀ f ∈ headFormats r, f.isStatic = true) :
    r.generateHeads env o { entry := some entry } = [] ∧ (expectedHeads env entry r).length = 1 := by
  have hvalues : ({ entry := some entry } : Result).generateValues env o entry (headFormats r) = [] :=
    generateValues_static h
  have hnone : expressionsOf (headFormats r) = [] := listExpressions_static (o := Order.sorted) h
  refine ⟨List.map_eq_nil_iff.mpr hvalues, ?_⟩
  rw [length_expectedHeads, productSize, hnone]
  rfl

/-- **A rule generates one role for each element of the product**, with all the parents it
stands for, if and only if the role itself has a field to fill. -/
theorem role_count_iff (env : Env) (o : Order) (entry : Entry) (r : RoleRule) :
    (∃ (parents : List Membership) (heads : List Head), r.generate env o { entry := some entry } =
        .ok (.parents parents :: heads.map fun head => .role true head r.config) ∧
      parents.Perm (expectedParents env entry r) ∧ heads.Perm (expectedHeads env entry r) ∧
      heads.length = productSize env entry (headFormats r)) ↔
    ∃ f ∈ headFormats r, f.isStatic = false := by
  constructor
  · intro ⟨parents, heads, hgenerate, _, hheads, _⟩
    by_contra hfield
    have hstatic : ∀ f ∈ headFormats r, f.isStatic = true := by simpa using hfield
    obtain ⟨hnone, hone⟩ := static_heads env (o.sub 1) entry hstatic
    obtain ⟨_, _, hsent⟩ := bind_eq_ok.mp hgenerate
    rw [hnone] at hsent
    cases heads with
    | nil => simp [← hheads.length_eq] at hone
    | cons head heads => cases hsent
  · intro hfield
    obtain ⟨parents, hparents, hperm⟩ := generateParents_perm env (o.sub 0) entry r
    have hheads : (r.generateHeads env (o.sub 1) { entry := some entry }).Perm
      (expectedHeads env entry r) := generateHeads_perm _ hfield
    refine ⟨parents, _, by rw [RoleRule.generate, hparents]; rfl, hperm, hheads, ?_⟩
    rw [hheads.length_eq, length_expectedHeads]

end Count

/-! A group whose members are the parents of a static role. -/
open Ldap.Sample

def readers : RoleRule where
  name := literal "readers"
  comment := literal ""
  parents := [memberField]
  beforeCreate := literal ""
  afterCreate := literal ""

/-- One role is expected and none is generated. -/
theorem readers_not_generated :
    readers.generate env Order.sorted { entry := some group } =
        .ok [.parents [{ name := "alice" }, { name := "bob" }]] ∧
      (expectedHeads env group readers).map Head.name = ["readers"] := by
  decide +kernel

end Ldap2pg.Wanted.Count
