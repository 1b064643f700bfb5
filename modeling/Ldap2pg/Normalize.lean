import Ldap2pg.Lib.Loops
import Ldap2pg.Lib.Yaml

/-! # `internal/normalize`: loose YAML made regular -/
namespace Ldap2pg.Normalize
open Lib

/-- How a normaliser ends when it returns no value: by the panic of a type
assertion, by a recursion that does not end, or with an error. -/
inductive Fault where
  | assertion (got want : String)
  | stackOverflow
  | error (err : String)
  deriving DecidableEq

/-- The error of a part, under the name of the part. -/
def Fault.wrap (name : String) : Fault → Fault
  | .error err => .error (name ++ ": " ++ err)
  | fault => fault

/-- `Alias`: the key `other` is renamed `key`. -/
def aliasKey (yaml : Dict Yaml) (key other : String) : Except Fault (Dict Yaml) :=
  match yaml[other]? with
  | none => .ok yaml
  | some value =>
    if key ∈ yaml then .error (.error ("key conflict between " ++ key ++ " and " ++ other))
    else .ok ((yaml.erase other).insert key value)

/-- `SpuriousKeys`: the first unknown key met is reported. -/
def spuriousKeys (o : Order) (yaml : Dict Yaml) (knownKeys : List String) : Except Fault Unit :=
  match (o.range yaml.keys).find? (fun key => !knownKeys.contains key) with
  | some key => .error (.error ("unknown key '" ++ key ++ "'"))
  | none => .ok ()

/-- `List`: a value that is not a list is a list of one. -/
def list : Yaml → List Yaml
  | .list items => items
  | yaml => [yaml]

/-! ## Ends with a value or an error -/

/-- Neither a panic nor a recursion that does not end. -/
def Returns {α : Type} (x : Except Fault α) : Prop := ∀ fault, x = .error fault → ∃ err, fault = .error err

section Returns
variable {α β : Type}

theorem Returns.ok (a : α) : Returns (.ok a : Except Fault α) := nofun

theorem Returns.error (err : String) : Returns (.error (.error err) : Except Fault α) :=
  fun _ h => ⟨err, by cases h; rfl⟩

theorem Returns.bind {x : Except Fault α} {f : α → Except Fault β} (hx : Returns x)
    (hf : ∀ a, x = .ok a → Returns (f a)) : Returns (x >>= f) := by
  cases x with
  | error fault =>
    intro fault' h
    cases h
    exact hx fault rfl
  | ok a => exact hf a rfl

theorem Returns.mapM {f : α → Except Fault β} {l : List α} (h : ∀ a ∈ l, Returns (f a)) :
    Returns (l.mapM f) := by
  induction l with
  | nil => exact .ok []
  | cons a l ih =>
    rw [List.mapM_cons]
    exact (h a List.mem_cons_self).bind fun b _ =>
      (ih fun c hc => h c (List.mem_cons_of_mem a hc)).bind fun out _ => .ok (b :: out)

theorem Returns.wrap {x : Except Fault α} (name : String) (h : Returns x) :
    Returns (x.mapError (Fault.wrap name)) := by
  cases x with
  | ok a => exact .ok a
  | error fault =>
    obtain ⟨err, rfl⟩ := h fault rfl
    exact .error _

end Returns

section Spec
variable {yaml out : Dict Yaml} {key other : String}

theorem aliasKey_returns : Returns (aliasKey yaml key other) := by
  unfold aliasKey
  split
  · exact .ok _
  · split
    · exact .error _
    · exact .ok _

theorem aliasKey_ok_iff :
    (∃ out, aliasKey yaml key other = .ok out) ↔ ¬ (other ∈ yaml ∧ key ∈ yaml) := by
  unfold aliasKey
  cases hother : yaml[other]? with
  | none => simp [Dict.not_mem_iff.mpr hother]
  | some value =>
    have hin : other ∈ yaml := Dict.mem_iff.mpr ⟨value, hother⟩
    by_cases hkey : key ∈ yaml <;> simp [hin, hkey]

theorem spuriousKeys_returns {o : Order} {known : List String} :
    Returns (spuriousKeys o yaml known) := by
  unfold spuriousKeys
  split
  · exact .error _
  · exact .ok _

theorem aliasKey_get (h : aliasKey yaml key other = .ok out) (hne : key ≠ other) (k : String) :
    out[k]? = if k = key then (yaml[other]?).or yaml[key]?
      else if k = other then none else yaml[k]? := by
  unfold aliasKey at h
  split at h
  case h_1 hnone =>
    cases h
    by_cases hk : k = key
    · simp [hk, hnone]
    · by_cases ho : k = other
      · simp [ho, hnone, Ne.symm hne]
      · simp [hk, ho]
  case h_2 value hsome =>
    split at h
    · cases h
    · cases h
      rw [Dict.get_insert, Dict.get_erase]
      by_cases hk : k = key
      · simp [hk, hsome]
      · by_cases ho : k = other
        · simp [ho, hne, Ne.symm hne]
        · simp [hk, ho, Ne.symm hk, Ne.symm ho]

theorem mem_aliasKey (h : aliasKey yaml key other = .ok out) (hne : key ≠ other) {k : String} :
    k ∈ out ↔ (k ≠ other ∧ k ∈ yaml) ∨ (k = key ∧ other ∈ yaml) := by
  rw [Dict.mem_iff, Dict.mem_iff, Dict.mem_iff, aliasKey_get h hne]
  by_cases hk : k = key
  · subst hk
    cases ho : yaml[other]? with
    | none => simp [hne]
    | some v => simp [hne]
  · by_cases ho : k = other
    · simp [ho, Ne.symm hne]
    · simp [hk, ho]

theorem spuriousKeys_ok_iff {o : Order} {known : List String} :
    spuriousKeys o yaml known = .ok () ↔ ∀ k ∈ yaml, k ∈ known := by
  unfold spuriousKeys
  split
  case h_1 key hfind =>
    refine iff_of_false nofun fun h => ?_
    have hin := Std.ExtTreeMap.mem_keys.mp (Order.mem_range.mp (List.mem_of_find?_eq_some hfind))
    have hunknown := List.find?_some hfind
    simp [h key hin] at hunknown
  case h_2 hfind =>
    refine iff_of_true rfl fun k hk => ?_
    have hnone := List.find?_eq_none.mp hfind k (Order.mem_range.mpr (Std.ExtTreeMap.mem_keys.mpr hk))
    simpa using hnone

/-- What is returned once the keys of a map are checked. -/
theorem checked_eq_ok {α : Type} {o : Order} {known : List String} {a b : α} :
    (do spuriousKeys o yaml known; return a : Except Fault α) = .ok b ↔
      (∀ k ∈ yaml, k ∈ known) ∧ a = b := by
  rw [← spuriousKeys_ok_iff (o := o)]
  refine bind_eq_ok.trans ⟨fun ⟨_, h, hab⟩ => ⟨h, Except.ok.inj hab⟩, fun ⟨h, hab⟩ => ⟨(), h, ?_⟩⟩
  rw [hab]
  rfl

end Spec

end Ldap2pg.Normalize
