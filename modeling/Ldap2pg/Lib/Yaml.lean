import Ldap2pg.Lib.GoMap

/-! # Documents: trees of maps, lists and scalars

What a reader of YAML leaves in an untyped variable. The entries of a map are
listed, in the order that suits; `asMap` is the Go map they make, and `ofMap` is
the way back. -/
namespace Ldap2pg.Lib

inductive Yaml where
  | null
  | bool (b : Bool)
  | int (i : Int)
  /-- a number, as it is printed -/
  | float (text : String)
  | str (s : String)
  | list (items : List Yaml)
  | map (entries : List (String × Yaml))
  deriving Inhabited

namespace Yaml

/-- The type assertion `yaml.(map[string]any)`. -/
def asMap : Yaml → Option (Dict Yaml)
  | .map entries => some (Dict.fill Prod.fst Prod.snd ∅ entries)
  | _ => none

def ofMap (m : Dict Yaml) : Yaml := .map m.toList

/-- The type assertion `yaml.([]any)`. -/
def asList : Yaml → Option (List Yaml)
  | .list items => some items
  | _ => none

/-- The type assertion `yaml.(string)`. -/
def asString : Yaml → Option String
  | .str s => some s
  | _ => none

/-- The `%T` of a value. -/
def typeName : Yaml → String
  | .null => "<nil>"
  | .bool _ => "bool"
  | .int _ => "int"
  | .float _ => "float64"
  | .str _ => "string"
  | .list _ => "[]interface \x7b\x7d"
  | .map _ => "map[string]interface \x7b\x7d"

theorem mem_entries {entries : List (String × Yaml)} {m : Dict Yaml} {k : String} {v : Yaml}
    (hm : (Yaml.map entries).asMap = some m) (hv : m[k]? = some v) : (k, v) ∈ entries := by
  cases hm
  rcases Dict.get_fill_cases hv with ⟨⟨a, b⟩, hin, rfl, rfl⟩ | h
  · exact hin
  · simp at h

@[simp] theorem asMap_ofMap (m : Dict Yaml) : (ofMap m).asMap = some m := by
  refine congrArg some (Dict.ext_get fun k => ?_)
  cases hk : (Dict.fill Prod.fst Prod.snd (∅ : Dict Yaml) m.toList)[k]? with
  | some v => exact (Std.ExtTreeMap.mem_toList_iff_getElem?_eq_some.mp (mem_entries rfl hk)).symm
  | none =>
    cases hv : m[k]? with
    | none => rfl
    | some v =>
      have hin : k ∈ Dict.fill Prod.fst Prod.snd (∅ : Dict Yaml) m.toList :=
        Dict.mem_fill.mpr (.inr ⟨(k, v), Std.ExtTreeMap.mem_toList_iff_getElem?_eq_some.mpr hv, rfl⟩)
      exact absurd hin (Dict.not_mem_iff.mpr hk)

end Yaml

end Ldap2pg.Lib
