import Ldap2pg.Lib.Loops
import Ldap2pg.Lib.Yaml

/-! # Strict decoding of documents

A record is filled field by field. A field takes the value of the key that is its
tag or, failing that, of a key that is its tag in another letter case. Keys that
no field takes are reported as invalid. An error does not stop decoding. -/
namespace Ldap2pg.Lib

variable {y : Yaml}

inductive DecodeError where
  | invalidKeys (path : String) (keys : List String)
  | unconvertible (path : String) (expected : String)
  /-- the error of a custom conversion -/
  | custom (path : String) (err : String)
  deriving DecidableEq

/-- What a decoder leaves in its variable, and the errors it met. -/
structure Decoded (α : Type) where
  value : α
  errors : List DecodeError := []

/-- A decoder knows the path of the value, for its errors. -/
abbrev Decoder (α : Type) := Order → String → Yaml → Decoded α

namespace Decode
variable {α ρ : Type}

/-- The letters of ASCII and the two other letters that fold to one of them. -/
def foldChar (c : Char) : Char :=
  if c = 'ſ' then 's' else if c = 'K' then 'k' else c.toLower

/-- `strings.EqualFold`, for a tag in ASCII. -/
def equalFold (key tag : String) : Bool := key.toList.map foldChar == tag.toList.map foldChar

theorem equalFold_self (key : String) : equalFold key key = true := by simp [equalFold]

/-- The key that a field takes. -/
def matchKey (o : Order) (m : Dict Yaml) (tag : String) : Option String :=
  if tag ∈ m then some tag else (o.range m.keys).find? (equalFold · tag)

/-- One field of a record: its tag, and how a value is stored. -/
structure Field (ρ : Type) where
  tag : String
  store : Order → String → Yaml → ρ → Decoded ρ

def field (tag : String) (decode : Decoder α) (put : α → ρ → ρ) : Field ρ where
  tag := tag
  store o path y r := ⟨put (decode o path y).value r, (decode o path y).errors⟩

/-- A null leaves the field as it is. -/
def storeField (o : Order) (path : String) (m : Dict Yaml) (st : Decoded ρ) (fi : Field ρ × Nat) :
    Decoded ρ :=
  match (matchKey ((o.sub 0).sub fi.2) m fi.1.tag).bind (m[·]?) with
  | none | some .null => st
  | some y =>
    let d := fi.1.store ((o.sub 1).sub fi.2) (path ++ "." ++ fi.1.tag) y st.value
    ⟨d.value, st.errors ++ d.errors⟩

/-- The keys that no field takes. -/
def unused (o : Order) (fields : List (Field ρ)) (m : Dict Yaml) : List String :=
  m.keys.filter fun k =>
    fields.zipIdx.all fun fi => matchKey ((o.sub 0).sub fi.2) m fi.1.tag != some k

def record (zero : ρ) (fields : List (Field ρ)) : Decoder ρ := fun o path y =>
  match y with
  | .null => ⟨zero, []⟩
  | y => match y.asMap with
    | none => ⟨zero, [.unconvertible path "map"]⟩
    | some m =>
      let out := fields.zipIdx.foldl (storeField o path m) ⟨zero, []⟩
      let keys := unused o fields m
      ⟨out.value, out.errors ++ if keys = [] then [] else [.invalidKeys path keys]⟩

/-- How a decoder of weakly typed input converts a value to a text, a Boolean or a number, if
it does. What is known is that it keeps a value of the type asked for. -/
structure Scalars where
  text : Yaml → Option String
  bool : Yaml → Option Bool
  int : Yaml → Option Int
  text_str : ∀ s, text (.str s) = some s
  bool_bool : ∀ b, bool (.bool b) = some b
  int_int : ∀ i, int (.int i) = some i

/-- A decoder that converts nothing. -/
def Scalars.strict : Scalars where
  text y := match y with | .str s => some s | _ => none
  bool y := match y with | .bool b => some b | _ => none
  int y := match y with | .int i => some i | _ => none
  text_str _ := rfl
  bool_bool _ := rfl
  int_int _ := rfl

/-- A null makes the zero value. A value that is not converted does too, with an error. -/
def scalar (expected : String) (zero : α) (convert : Yaml → Option α) : Decoder α :=
  fun _ path y =>
    match y with
    | .null => ⟨zero, []⟩
    | y => match convert y with
      | some a => ⟨a, []⟩
      | none => ⟨zero, [.unconvertible path expected]⟩

def string (scalars : Scalars) : Decoder String := scalar "string" "" scalars.text

def bool (scalars : Scalars) : Decoder Bool := scalar "bool" false scalars.bool

def int (scalars : Scalars) : Decoder Int := scalar "int" 0 scalars.int

/-- A value that is not a list is a list of one. -/
def list (elem : Decoder α) : Decoder (List α) := fun o path y =>
  let items := match y with
    | .null => []
    | .list items => items
    | y => [y]
  let out := items.zipIdx.map fun yi => elem (o.sub yi.2) (path ++ "[" ++ toString yi.2 ++ "]") yi.1
  ⟨out.map Decoded.value, out.flatMap Decoded.errors⟩

def dict (elem : Decoder α) : Decoder (Dict α) := fun o path y =>
  match y with
  | .null => ⟨∅, []⟩
  | y => match y.asMap with
    | none => ⟨∅, [.unconvertible path "map"]⟩
    | some m =>
      let out := (o.range m.keys).zipIdx.map fun ki =>
        (ki.1, elem (o.sub ki.2) (path ++ "[" ++ ki.1 ++ "]") (m[ki.1]?.getD .null))
      ⟨Dict.fill Prod.fst (fun kd => kd.2.value) ∅ out, out.flatMap fun kd => kd.2.errors⟩

/-- In weakly typed input, a list of maps makes one map. -/
def weakDict (elem : Decoder α) : Decoder (Dict α) := fun o path y =>
  match y with
  | .list items =>
    items.zipIdx.foldl (fun st yi =>
      if st.errors = [] then
        let d := dict elem (o.sub yi.2) (path ++ "[" ++ toString yi.2 ++ "]") yi.1
        ⟨Dict.copy st.value d.value, d.errors⟩
      else st) ⟨∅, []⟩
  | y => dict elem o path y

/-! ## Invalid keys -/

section Keys
variable {o : Order} {m : Dict Yaml} {fields : List (Field ρ)} {key : String}

theorem equalFold_of_matchKey {tag : String} (h : matchKey o m tag = some key) :
    equalFold key tag = true := by
  unfold matchKey at h
  split at h
  · cases h
    exact equalFold_self key
  · exact List.find?_some (p := fun k => equalFold k tag) h

/-- A tag takes the only key that is the tag in some letter case. -/
theorem matchKey_eq {tag : String} (hkey : key ∈ m) (hfold : equalFold key tag = true)
    (honly : ∀ k ∈ m, equalFold k tag = true → k = key) : matchKey o m tag = some key := by
  unfold matchKey
  split
  case isTrue htag => rw [honly tag htag (equalFold_self tag)]
  case isFalse =>
    cases hfind : (o.range m.keys).find? (equalFold · tag) with
    | none =>
      have hnone := List.find?_eq_none.mp hfind key
        (Order.mem_range.mpr (Std.ExtTreeMap.mem_keys.mpr hkey))
      exact absurd hfold hnone
    | some k =>
      have hk := Std.ExtTreeMap.mem_keys.mp (Order.mem_range.mp (List.mem_of_find?_eq_some hfind))
      rw [honly k hk (List.find?_some (p := fun k => equalFold k tag) hfind)]

/-- The fields have a tag for the key, and no other key of the map for this tag. -/
def Tagged (fields : List (Field ρ)) (m : Dict Yaml) (key : String) : Prop :=
  ∃ f ∈ fields, equalFold key f.tag = true ∧ ∀ k ∈ m, equalFold k f.tag = true → k = key

theorem not_mem_unused (h : Tagged fields m key) : key ∉ unused o fields m := by
  intro hin
  obtain ⟨hkey, hall⟩ := List.mem_filter.mp hin
  obtain ⟨f, hf, hfold, honly⟩ := h
  obtain ⟨i, hi⟩ := exists_mem_zipIdx hf
  have htaken := List.all_eq_true.mp hall _ hi
  rw [matchKey_eq (Std.ExtTreeMap.mem_keys.mp hkey) hfold honly] at htaken
  simp at htaken

theorem unused_eq_nil (h : ∀ k ∈ m, Tagged fields m k) : unused o fields m = [] :=
  List.eq_nil_iff_forall_not_mem.mpr fun k hk =>
    not_mem_unused (h k (Std.ExtTreeMap.mem_keys.mp (List.mem_filter.mp hk).1)) hk

/-- Some keys, each of them the only one for a tag. -/
theorem tagged_of_tags {keys tags : List String} (hfields : tags ⊆ fields.map Field.tag)
    (htags : ∀ k ∈ keys, ∃ tag ∈ tags, equalFold k tag = true ∧
      ∀ k' ∈ keys, equalFold k' tag = true → k' = k) (hm : ∀ k ∈ m, k ∈ keys) :
    ∀ k ∈ m, Tagged fields m k := by
  intro k hk
  obtain ⟨tag, htag, hfold, honly⟩ := htags k (hm k hk)
  obtain ⟨f, hf, rfl⟩ := List.mem_map.mp (hfields htag)
  exact ⟨f, hf, hfold, fun k' hk' => honly k' (hm k' hk')⟩

/-- A key that is no tag in any letter case is not. -/
theorem mem_unused (hkey : key ∈ m) (h : ∀ f ∈ fields, equalFold key f.tag = false) :
    key ∈ unused o fields m := by
  refine List.mem_filter.mpr ⟨Std.ExtTreeMap.mem_keys.mpr hkey, List.all_eq_true.mpr ?_⟩
  intro fi hfi
  by_contra hne
  have hmatch : matchKey ((o.sub 0).sub fi.2) m fi.1.tag = some key := by simpa using hne
  have hfold := equalFold_of_matchKey hmatch
  rw [h fi.1 (List.fst_mem_of_mem_zipIdx hfi)] at hfold
  cases hfold

/-- An error on a value comes from a field that takes a key. -/
theorem mem_storeField {path : String} {e : DecodeError} {l : List (Field ρ × Nat)} :
    ∀ {st : Decoded ρ}, e ∈ (l.foldl (storeField o path m) st).errors →
      e ∈ st.errors ∨ ∃ fi ∈ l, (∃ k ∈ m, equalFold k fi.1.tag = true) ∧
        ∃ o' path' y r, e ∈ (fi.1.store o' path' y r).errors := by
  induction l with
  | nil => intro st h; exact .inl h
  | cons fi l ih =>
    intro st h
    rcases ih h with h | ⟨fj, hfj, hstore⟩
    · unfold storeField at h
      split at h
      case h_1 | h_2 => exact .inl h
      case h_3 y _ hy =>
        obtain ⟨k, hmatch, hk⟩ := Option.bind_eq_some_iff.mp hy
        rcases List.mem_append.mp h with h | h
        · exact .inl h
        · exact .inr ⟨fi, List.mem_cons_self,
            ⟨k, Dict.mem_iff.mpr ⟨y, hk⟩, equalFold_of_matchKey hmatch⟩, _, _, _, _, h⟩
    · exact .inr ⟨fj, List.mem_cons_of_mem fi hfj, hstore⟩

theorem record_of_map {zero : ρ} {path : String} (hy : y.asMap = some m) :
    record zero fields o path y =
      ⟨(fields.zipIdx.foldl (storeField o path m) ⟨zero, []⟩).value,
        (fields.zipIdx.foldl (storeField o path m) ⟨zero, []⟩).errors ++
          if unused o fields m = [] then [] else [.invalidKeys path (unused o fields m)]⟩ := by
  cases y with
  | map entries =>
    cases hy
    rfl
  | _ => cases hy

/-- If every key has its tag, a record is what its fields take. -/
theorem record_of_tagged {zero : ρ} {path : String} {y : Yaml} {d : Decoded ρ} (hy : y.asMap = some m)
    (hkeys : ∀ k ∈ m, Tagged fields m k)
    (hout : fields.zipIdx.foldl (storeField o path m) ⟨zero, []⟩ = d) :
    record zero fields o path y = d := by
  rw [record_of_map hy, unused_eq_nil hkeys, if_pos rfl, List.append_nil, hout]

/-- A key that is no tag in any letter case is reported. -/
theorem rejects_of_mem {zero : ρ} {path : String} (hy : y.asMap = some m) (hkey : key ∈ m)
    (h : ∀ f ∈ fields, equalFold key f.tag = false) :
    ∃ keys, key ∈ keys ∧ .invalidKeys path keys ∈ (record zero fields o path y).errors := by
  have hin : key ∈ unused o fields m := mem_unused hkey h
  refine ⟨unused o fields m, hin, ?_⟩
  rw [record_of_map hy, if_neg (List.ne_nil_of_mem hin)]
  exact List.mem_append_right _ (List.mem_singleton_self _)

/-- If every key has its tag, an invalid key is one of a value. -/
theorem store_of_rejects {zero : ρ} {path path' : String} {keys : List String}
    (hy : y.asMap = some m) (hkeys : ∀ k ∈ m, Tagged fields m k)
    (h : .invalidKeys path' keys ∈ (record zero fields o path y).errors) :
    ∃ f ∈ fields, (∃ k ∈ m, equalFold k f.tag = true) ∧
      ∃ o' path'' y' r, .invalidKeys path' keys ∈ (f.store o' path'' y' r).errors := by
  rw [record_of_tagged hy hkeys rfl] at h
  rcases mem_storeField h with h | ⟨fi, hfi, hstore⟩
  · cases h
  · exact ⟨fi.1, List.fst_mem_of_mem_zipIdx hfi, hstore⟩

end Keys

/-! ## Values -/

section Values
variable {o : Order} {m : Dict Yaml} {path : String}

/-- A field reads the only key that is its tag in some letter case. -/
theorem matchKey_bind {tag key : String} (hfold : equalFold key tag = true)
    (honly : ∀ k ∈ m, equalFold k tag = true → k = key) :
    (matchKey o m tag).bind (m[·]?) = m[key]? := by
  by_cases hkey : key ∈ m
  · rw [matchKey_eq hkey hfold honly]
    rfl
  · have hnone : matchKey o m tag = none := by
      cases hmatch : matchKey o m tag with
      | none => rfl
      | some k =>
        have hk : k ∈ m := by
          unfold matchKey at hmatch
          split at hmatch
          · cases hmatch; assumption
          · exact Std.ExtTreeMap.mem_keys.mp (Order.mem_range.mp (List.mem_of_find?_eq_some hmatch))
        exact absurd (honly k hk (equalFold_of_matchKey hmatch) ▸ hk) hkey
    rw [hnone, Dict.not_mem_iff.mp hkey]
    rfl

theorem scalar_of_some {expected : String} {zero a : α} {convert : Yaml → Option α}
    (h : convert y = some a) (hy : y ≠ .null) :
    scalar expected zero convert o path y = ⟨a, []⟩ := by
  unfold scalar
  split
  · exact absurd rfl hy
  · rw [h]

@[simp] theorem bool_bool (scalars : Scalars) (b : Bool) :
    bool scalars o path (.bool b) = ⟨b, []⟩ :=
  scalar_of_some (scalars.bool_bool b) Yaml.noConfusion

@[simp] theorem int_int (scalars : Scalars) (i : Int) : int scalars o path (.int i) = ⟨i, []⟩ :=
  scalar_of_some (scalars.int_int i) Yaml.noConfusion

/-- An error of a scalar is on its type. -/
theorem scalar_errors {expected : String} {zero : α} {convert : Yaml → Option α} {e : DecodeError}
    (h : e ∈ (scalar expected zero convert o path y).errors) :
    e = .unconvertible path expected := by
  unfold scalar at h
  split at h
  · cases h
  · split at h
    · cases h
    · exact List.mem_singleton.mp h

/-- The text that a value is decoded to. -/
def Scalars.textOf (scalars : Scalars) : Yaml → String
  | .null => ""
  | y => (scalars.text y).getD ""

@[simp] theorem Scalars.textOf_str (scalars : Scalars) (s : String) : scalars.textOf (.str s) = s :=
  congrArg (Option.getD · "") (scalars.text_str s)

theorem string_value (scalars : Scalars) (y : Yaml) :
    (string scalars o path y).value = scalars.textOf y := by
  unfold string scalar Scalars.textOf
  split
  · rfl
  · cases scalars.text y <;> rfl

/-- A field of text that is empty takes the text of its key. -/
theorem storeField_string {scalars : Scalars} {tag key : String} {put : String → ρ → ρ}
    {st : Decoded ρ} {i : Nat} (hfold : equalFold key tag = true)
    (honly : ∀ k ∈ m, equalFold k tag = true → k = key) (hput : put "" st.value = st.value) :
    (storeField o path m st (field tag (string scalars) put, i)).value =
      put (scalars.textOf (m[key]?.getD .null)) st.value := by
  unfold storeField
  rw [show (field tag (string scalars) put, i).1.tag = tag from rfl, matchKey_bind hfold honly]
  cases m[key]? with
  | none => exact hput.symm
  | some y =>
    cases y with
    | null => exact hput.symm
    | _ => exact congrArg (put · st.value) (string_value scalars _)

theorem list_value {elem : Decoder α} {f : Yaml → α} {items : List Yaml}
    (h : ∀ y ∈ items, ∀ o path, (elem o path y).value = f y) :
    (list elem o path (.list items)).value = items.map f := by
  show (items.zipIdx.map _).map Decoded.value = _
  rw [List.map_map]
  conv_rhs => rw [← List.zipIdx_map_fst 0 items, List.map_map]
  exact List.map_congr_left fun yi hyi => h yi.1 (List.fst_mem_of_mem_zipIdx hyi) _ _

theorem dict_get {elem : Decoder α} {f : Yaml → α} (hy : y.asMap = some m)
    (h : ∀ (k : String) v, m[k]? = some v → ∀ o path, (elem o path v).value = f v) (k : String) :
    (dict elem o path y).value[k]? = m[k]?.map f := by
  generalize hout : (o.range m.keys).zipIdx.map (fun ki =>
    (ki.1, elem (o.sub ki.2) (path ++ "[" ++ ki.1 ++ "]") (m[ki.1]?.getD .null))) = out
  have hvalue : (dict elem o path y).value = Dict.fill Prod.fst (fun kd => kd.2.value) ∅ out := by
    cases y with
    | map entries => cases hy; rw [← hout]; rfl
    | _ => cases hy
  -- a row of `out` is a key of the map, with its value
  have hrow : ∀ kd ∈ out, m[kd.1]?.map f = some kd.2.value := by
    intro kd hkd
    rw [← hout] at hkd
    obtain ⟨ki, hki, rfl⟩ := List.mem_map.mp hkd
    obtain ⟨v, hv⟩ := Dict.mem_keys_iff.mp (Order.mem_range.mp (List.fst_mem_of_mem_zipIdx hki))
    rw [hv]
    exact congrArg some (h ki.1 v hv _ _).symm
  rw [hvalue]
  cases hk : (Dict.fill Prod.fst (fun kd => kd.2.value) (∅ : Dict α) out)[k]? with
  | some a =>
    rcases Dict.get_fill_cases hk with ⟨kd, hkd, rfl, rfl⟩ | hk
    · exact (hrow kd hkd).symm
    · simp at hk
  | none =>
    cases hv : m[k]? with
    | none => rfl
    | some v =>
      obtain ⟨i, hi⟩ := exists_mem_zipIdx (Order.mem_range.mpr (Dict.mem_keys_iff.mpr ⟨v, hv⟩) :
        k ∈ o.range m.keys)
      have hin : k ∈ Dict.fill Prod.fst (fun kd => kd.2.value) (∅ : Dict α) out :=
        Dict.mem_fill.mpr (.inr ⟨_, hout ▸ List.mem_map_of_mem hi, rfl⟩)
      exact absurd hin (Dict.not_mem_iff.mpr hk)

end Values

end Decode

end Ldap2pg.Lib
