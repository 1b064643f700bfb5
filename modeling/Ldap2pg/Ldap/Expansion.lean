import Ldap2pg.Ldap.Correlated

/-! # Fields without a dot

A field without a dot stands for each value of an attribute, several fields for each
combination. The code takes the value of a known RDN from the DN of the entry, even
when the entry has the attribute. -/
namespace Ldap2pg.Ldap.Expansion
open Lib Pyfmt Ldap.Correlated

/-- A field of a format: an attribute other than `dn`, that the entry has. -/
structure Present (env : Env) (entry : Entry) (attr : String) : Prop where
  named : attr ≠ ""
  undotted : '.' ∉ attr.toList
  notDN : env.toLower attr ≠ "dn"
  values : entry.values env attr ≠ []

variable {env : Env} {entry : Entry} {attrs : List String}

theorem attributesOf_undotted (hnodup : attrs.Nodup) (h : ∀ a ∈ attrs, '.' ∉ a.toList) :
    attributesOf attrs = attrs := by
  have hroot : attrs.map root = attrs := by
    conv_rhs => rw [← List.map_id attrs]
    exact List.map_congr_left fun a ha => congrArg Prod.fst (cut_of_not_mem (h a ha))
  rw [attributesOf, hroot, List.dedup_eq_self.mpr hnodup]

/-- Without a dot, expressions read a choice as it is. -/
theorem resolve_undotted (h : ∀ a ∈ attrs, '.' ∉ a.toList) {values : String → List String}
    {m : Values} (hm : m ∈ choices values ∅ attrs) : resolveExpressions env "" attrs m ∅ = m := by
  rw [resolveExpressions_eq]
  refine Dict.ext_get fun e => ?_
  rw [get_valuesOf]
  split
  · next he =>
    obtain ⟨v, _, hv⟩ := (get_of_mem_choices hm e).1 he
    simp [expressionValue, cut_of_not_mem (h e he), hv]
  · next he =>
    rw [(get_of_mem_choices hm e).2 he]
    simp

/-- What comes out without a sub-search: a choice of the values the code takes. -/
theorem generateValues_undotted (o : Order) {fmts : List Format}
    (hdyn : ∃ f ∈ fmts, f.isStatic = false) (h : ∀ a ∈ expressionsOf fmts, '.' ∉ a.toList) :
    (({ entry := some entry } : Result).generateValues env o entry fmts).Perm
      (choices (attributeValues env entry "" []) ∅ (expressionsOf fmts)) := by
  have hperm : (({ entry := some entry } : Result).generateValues env o entry fmts).Perm
      (expectedValues env entry fmts) := generateValues_perm rfl o hdyn
  rw [expectedValues, attributesOf_undotted (nodup_expressionsOf fmts) h] at hperm
  rwa [List.map_congr_left fun m hm => resolve_undotted h hm, List.map_id'] at hperm

theorem attributeValues_present (hf : Folds env) {a : String} (h : Present env entry a) :
    attributeValues env entry "" [] a =
      if env.toLower a ∈ env.knownRDNs then [(resolveFirstRDN env entry.dn a).getD ""]
      else entry.values env a := by
  have hfold : ¬ env.equalFold "" a = true := fun he => h.named (hf.empty a he)
  simp [attributeValues, h.notDN, hfold]

/-- The values the code takes are no more than those of the entry. -/
theorem length_attributeValues (hf : Folds env) {a : String} (h : Present env entry a) :
    0 < (attributeValues env entry "" [] a).length ∧
      (attributeValues env entry "" [] a).length ≤ (entry.values env a).length := by
  have hpos : 0 < (entry.values env a).length := List.length_pos_iff.mpr h.values
  rw [attributeValues_present hf h]
  split
  · exact ⟨Nat.one_pos, hpos⟩
  · exact ⟨hpos, Nat.le_refl _⟩

/-- **A field expands to the values of the attribute exactly when it is not a known RDN,
or the attribute has one value and the DN gives the same.** Several fields then expand
to all combinations, each once. -/
theorem undotted_expansion_iff (env : Env) (hf : Folds env) (o : Order) (entry : Entry)
    (fmts : List Format) (hdyn : ∃ f ∈ fmts, f.isStatic = false)
    (hattrs : ∀ a ∈ expressionsOf fmts, Present env entry a) :
    (({ entry := some entry } : Result).generateValues env o entry fmts).Perm
        (choices (entry.values env) ∅ (expressionsOf fmts)) ↔
      ∀ a ∈ expressionsOf fmts, env.toLower a ∈ env.knownRDNs →
        entry.values env a = [(resolveFirstRDN env entry.dn a).getD ""] := by
  have hcode : (({ entry := some entry } : Result).generateValues env o entry fmts).Perm
      (choices (attributeValues env entry "" []) ∅ (expressionsOf fmts)) :=
    generateValues_undotted o hdyn fun a ha => (hattrs a ha).undotted
  rw [hcode.congr_left]
  constructor
  · intro hperm a ha hknown
    have hlengths := hperm.length_eq
    rw [length_choices, length_choices] at hlengths
    have hlen := eq_of_prod_eq (fun k hk => (length_attributeValues hf (hattrs k hk)).2)
      (fun k hk => (length_attributeValues hf (hattrs k hk)).1) hlengths a ha
    have hvalue : attributeValues env entry "" [] a =
        [(resolveFirstRDN env entry.dn a).getD ""] := by
      rw [attributeValues_present hf (hattrs a ha), if_pos hknown]
    rw [hvalue, List.length_singleton] at hlen
    obtain ⟨v, hv⟩ := List.length_eq_one_iff.mp hlen.symm
    -- any choice has both values
    obtain ⟨m, l, hm⟩ := List.exists_cons_of_ne_nil
      (choices_ne_nil (fun k hk => (hattrs k hk).values) (∅ : Values))
    have hmem : m ∈ choices (entry.values env) ∅ (expressionsOf fmts) := by
      rw [hm]; exact List.mem_cons_self
    obtain ⟨w, hw, hget⟩ := (get_of_mem_choices hmem a).1 ha
    obtain ⟨w', hw', hget'⟩ := (get_of_mem_choices (hperm.mem_iff.mpr hmem) a).1 ha
    rw [hv, List.mem_singleton] at hw
    rw [hvalue, List.mem_singleton] at hw'
    rw [hget, Option.some.injEq] at hget'
    rw [hv, ← hw, hget', hw']
  · intro hall
    rw [choices_congr fun a ha => ?_]
    rw [attributeValues_present hf (hattrs a ha)]
    split
    · next hknown => exact (hall a ha hknown).symm
    · rfl

/-! ## The entries of the documentation -/
/-- The DNs of the two entries. -/
def docEnv : Env where
  toLower := id
  toUpper := id
  equalFold := fun a b => a == b
  toLower_letters := id_letters
  parseDN := fun dn =>
    if dn = "uid=dimitri,cn=Users" then some [("uid", "dimitri"), ("cn", "Users")]
    else if dn = "cn=domitille,cn=Users" then some [("cn", "domitille"), ("cn", "Users")]
    else none
  knownRDNs := ["cn", "uid"]

theorem docEnv_folds : Folds docEnv := by
  refine ⟨fun s => beq_self_eq_true s, fun s hs => ?_⟩
  exact (beq_iff_eq.mp hs).symm

def dimitri : Entry := ⟨"uid=dimitri,cn=Users", [("cn", ["dimitri"])]⟩

def domitille : Entry :=
  ⟨"cn=domitille,cn=Users", [("cn", ["domitille"]), ("company", ["acme", "external"])]⟩

def cnFormat : Format := ⟨"\x7bcn\x7d", [.field { fieldName := "cn" }]⟩

def companyCn : Format :=
  ⟨"\x7bcompany\x7d_\x7bcn\x7d",
    [.field { fieldName := "company" }, .literal "_", .field { fieldName := "cn" }]⟩

theorem domitille_expands :
    (({ entry := some domitille } : Result).generateValues docEnv Order.sorted domitille
      [companyCn]).Perm
        (choices (domitille.values docEnv) ∅ (expressionsOf [companyCn])) := by
  have hcases : ∀ a ∈ expressionsOf [companyCn], a = "company" ∨ a = "cn" := by
    intro a ha
    simpa [expressionsOf, companyCn, Format.fields, Section.field?, eq_comm] using ha
  have hattrs : ∀ a ∈ expressionsOf [companyCn], Present docEnv domitille a := by
    intro a ha
    rcases hcases a ha with rfl | rfl
    · exact ⟨by decide, by decide, by decide, by decide⟩
    · exact ⟨by decide, by decide, by decide, by decide⟩
  have hdyn : ∃ f ∈ [companyCn], f.isStatic = false := ⟨companyCn, by simp, rfl⟩
  refine (undotted_expansion_iff docEnv docEnv_folds Order.sorted domitille [companyCn] hdyn
    hattrs).mpr fun a ha hknown => ?_
  rcases hcases a ha with rfl | rfl
  · exact absurd hknown (by decide)
  · decide

/-- The attribute `cn` of the entry is `dimitri`, the field is `Users`. -/
theorem dimitri_named_users :
    dimitri.values docEnv "cn" = ["dimitri"] ∧
      ({ entry := some dimitri } : Result).generateValues docEnv Order.sorted
        dimitri [cnFormat] = [(∅ : Values).insert "cn" "Users"] := by
  refine ⟨by decide, ?_⟩
  decide +kernel

end Ldap2pg.Ldap.Expansion
