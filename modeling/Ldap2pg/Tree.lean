import Ldap2pg.Lib.GoMap
import Ldap2pg.Lib.Digraph

/-! # `internal/tree`: parents before children -/
namespace Ldap2pg.Tree
open Lib

/-- The parents of a name, as `walkOne` sorts them. -/
def parents (heritance : Dict (List String)) (name : String) : List String :=
  (Dict.listAt heritance name).mergeSort fun a b => decide (a ≤ b)

/-- The names in the map, as keys or as parents. -/
def names (heritance : Dict (List String)) : List String :=
  heritance.keys ++ heritance.keys.flatMap (parents heritance)

/-- `Walk`. The recursion of `walkOne` is not deeper than the number of names, unless
it does not end. -/
def walk (heritance : Dict (List String)) : Option (List String) :=
  Digraph.visitAll (parents heritance) (names heritance).length heritance.keys []

variable {heritance : Dict (List String)}

@[simp] theorem mem_parents {name parent : String} :
    parent ∈ parents heritance name ↔ parent ∈ Dict.listAt heritance name := List.mem_mergeSort

theorem edge_parents : Digraph.Edge (parents heritance) = Digraph.Edge (Dict.listAt heritance) :=
  funext fun _ => funext fun _ => propext mem_parents

theorem acyclic_parents (h : Digraph.Acyclic (Dict.listAt heritance)) :
    Digraph.Acyclic (parents heritance) := by
  unfold Digraph.Acyclic
  rw [edge_parents]
  exact h

/-- Without a loop, the walk ends. It lists the keys and what they lead to. -/
theorem walk_extends (h : Digraph.Acyclic (Dict.listAt heritance)) :
    ∃ out, walk heritance = some out ∧
      Digraph.Extends (parents heritance) heritance.keys [] out := by
  have hclosed : ∀ a ∈ names heritance, ∀ b ∈ parents heritance a, b ∈ names heritance := by
    intro a _ b hb
    have ha : a ∈ heritance.keys :=
      Std.ExtTreeMap.mem_keys.mpr (Dict.mem_of_mem_listAt (mem_parents.mp hb))
    exact List.mem_append_right _ (List.mem_flatMap.mpr ⟨a, ha, hb⟩)
  exact Digraph.visitAll_spec (acyclic_parents h) hclosed
    (fun a ha => List.mem_append_left _ ha) (Nat.le_refl _)

/-- It lists every key and every parent, after its own parents. -/
theorem walk_spec (h : Digraph.Acyclic (Dict.listAt heritance)) :
    ∃ out, walk heritance = some out ∧
      Digraph.Topological (parents heritance) out ∧ ∀ name ∈ heritance, name ∈ out := by
  obtain ⟨out, hout, hextends⟩ := walk_extends h
  exact ⟨out, hout, hextends.topological,
    fun name hname => hextends.covers name (Std.ExtTreeMap.mem_keys.mpr hname)⟩

/-- On a loop it does not, however deep the recursion may go. -/
theorem acyclic_of_visitAll {fuel : Nat} {out : List String}
    (h : Digraph.visitAll (parents heritance) fuel heritance.keys [] = some out) :
    Digraph.Acyclic (Dict.listAt heritance) := by
  intro name hloop
  have hkey : name ∈ heritance.keys := by
    obtain ⟨parent, hparent, _⟩ := Relation.TransGen.head'_iff.mp hloop
    exact Std.ExtTreeMap.mem_keys.mpr (Dict.mem_of_mem_listAt hparent)
  exact Digraph.acyclic_of_visitAll h name hkey (edge_parents ▸ hloop)

theorem walk_eq_none_iff : walk heritance = none ↔ ¬ Digraph.Acyclic (Dict.listAt heritance) := by
  refine ⟨fun h ha => ?_, fun h => ?_⟩
  · obtain ⟨out, hout, _⟩ := walk_spec ha
    rw [h] at hout
    cases hout
  · cases hw : walk heritance with
    | none => rfl
    | some out => exact absurd (acyclic_of_visitAll hw) h

end Ldap2pg.Tree
