import Ldap2pg.Lib.GoMap

/-! # Products of lists

`tuples` is the product of some lists, the last one running fastest; the product of
no list has one element. `choices` is the same with names: all the ways to extend
a map with one value for each key. Its elements do not depend on the order of the
keys. -/
namespace Ldap2pg.Lib

section Tuples
variable {α β γ : Type}

def tuples : List (List α) → List (List α)
  | [] => [[]]
  | l :: lists => l.flatMap fun a => (tuples lists).map (a :: ·)

theorem length_tuples (lists : List (List α)) :
    (tuples lists).length = (lists.map List.length).prod := by
  induction lists with
  | nil => rfl
  | cons l lists ih => simp [tuples, ih, List.length_flatMap]

theorem tuples_eq_nil {lists : List (List α)} (h : [] ∈ lists) : tuples lists = [] := by
  induction lists with
  | nil => cases h
  | cons l lists ih =>
    rcases List.mem_cons.mp h with rfl | h
    · rfl
    · rw [tuples, ih h]
      exact List.flatMap_eq_nil_iff.mpr fun _ _ => rfl

theorem mem_tuples {lists : List (List α)} {t : List α} :
    t ∈ tuples lists ↔ List.Forall₂ (· ∈ ·) t lists := by
  induction lists generalizing t with
  | nil => simp [tuples]
  | cons l lists ih =>
    rw [tuples, List.mem_flatMap]
    constructor
    · intro ⟨a, ha, ht⟩
      obtain ⟨s, hs, rfl⟩ := List.mem_map.mp ht
      exact .cons ha (ih.mp hs)
    · intro h
      cases h with
      | cons ha ht => exact ⟨_, ha, List.mem_map.mpr ⟨_, ih.mpr ht, rfl⟩⟩

/-- **The tuples of sorted lists are sorted**, lexicographically. -/
theorem pairwise_tuples {R : α → α → Prop} {lists : List (List α)}
    (h : ∀ l ∈ lists, l.Pairwise R) : (tuples lists).Pairwise (List.Lex R) := by
  induction lists with
  | nil => exact List.pairwise_singleton _ _
  | cons l lists ih =>
    have htail := ih fun l hl => h l (List.mem_cons_of_mem _ hl)
    have hhead := h l List.mem_cons_self
    clear h
    induction hhead with
    | nil => exact .nil
    | @cons a l ha _ ih =>
      refine List.pairwise_append.mpr ⟨?_, ih, ?_⟩
      · exact List.pairwise_map.mpr (htail.imp fun hlex => .cons hlex)
      · intro t ht t' ht'
        obtain ⟨s, -, rfl⟩ := List.mem_map.mp ht
        obtain ⟨b, hb, ht'⟩ := List.mem_flatMap.mp ht'
        obtain ⟨s', -, rfl⟩ := List.mem_map.mp ht'
        exact .rel (ha b hb)

/-- The tuples of positions. -/
def positions (lists : List (List α)) : List (List Nat) :=
  tuples (lists.map fun l => List.range l.length)

/-- The values at some positions. -/
def valuesAt (lists : List (List α)) (p : List Nat) : List (Option α) :=
  List.zipWith (fun l i => l[i]?) lists p

theorem map_some_eq (l : List α) : l.map some = (List.range l.length).map fun i => l[i]? := by
  refine List.ext_getElem (by simp) fun i hi _ => ?_
  have hi : i < l.length := by simpa using hi
  simp [hi]

/-- A tuple of values for each tuple of positions, in the same order. -/
theorem tuples_eq_positions (lists : List (List α)) :
    (tuples lists).map (List.map some) = (positions lists).map (valuesAt lists) := by
  unfold positions
  induction lists with
  | nil => rfl
  | cons l lists ih =>
    have hfrom : (tuples (l :: lists)).map (List.map some) =
        (l.map some).flatMap fun a => ((tuples lists).map (List.map some)).map (a :: ·) := by
      simp only [tuples, List.map_flatMap, List.flatMap_map, List.map_map]
      rfl
    rw [hfrom, ih, map_some_eq]
    simp only [List.map_cons, tuples, List.map_flatMap, List.flatMap_map, List.map_map]
    rfl

theorem mem_positions {lists : List (List α)} {p : List Nat} :
    p ∈ positions lists ↔ List.Forall₂ (fun i l => i < l.length) p lists := by
  simp only [positions, mem_tuples, List.forall₂_map_right_iff, List.mem_range]

theorem pairwise_positions (lists : List (List α)) :
    (positions lists).Pairwise (List.Lex (· < ·)) := by
  refine pairwise_tuples fun l hl => ?_
  obtain ⟨l, -, rfl⟩ := List.mem_map.mp hl
  exact List.pairwise_lt_range

/-- Two nested loops may be swapped. -/
theorem flatMap_comm (l : List α) (l' : List β) (f : α → β → List γ) :
    (l.flatMap fun a => l'.flatMap (f a)).Perm (l'.flatMap fun b => l.flatMap fun a => f a b) := by
  induction l with
  | nil => simp
  | cons a l ih =>
    simp only [List.flatMap_cons]
    exact (ih.append_left _).trans (List.flatMap_append_perm l' (f a) _)

theorem flatMap_map_comm (l : List α) (l' : List β) (f : α → β → γ) :
    (l.flatMap fun a => l'.map (f a)).Perm (l'.flatMap fun b => l.map fun a => f a b) := by
  simp only [List.map_eq_flatMap]
  exact flatMap_comm l l' fun a b => [f a b]

end Tuples

section Choices
variable {β : Type} {values : String → List β} {m : Dict β} {keys : List String}

def choices (values : String → List β) (m : Dict β) : List String → List (Dict β)
  | [] => [m]
  | k :: keys => (values k).flatMap fun v => choices values (m.insert k v) keys

/-- Tuples, indexed by the names of the lists. -/
theorem map_tuples : ∀ (keys : List String) (m : Dict β),
    ((tuples (keys.map values)).map fun item =>
      (keys.zip item).foldl (fun m kv => m.insert kv.1 kv.2) m) = choices values m keys
  | [], _ => rfl
  | k :: keys, m => by
    simp only [List.map_cons, tuples, choices, List.map_flatMap, List.map_map]
    refine List.flatMap_congr fun v _ => ?_
    rw [← map_tuples keys (m.insert k v)]
    rfl

/-- **The order of the keys does not matter.** -/
theorem choices_perm {keys' : List String} (hkeys : keys.Nodup) (h : keys.Perm keys') (m : Dict β) :
    (choices values m keys).Perm (choices values m keys') := by
  induction h generalizing m with
  | nil => exact .refl _
  | cons k _ ih =>
    exact List.Perm.flatMap_left _ fun v _ => ih (List.nodup_cons.mp hkeys).2 (m.insert k v)
  | swap k k' keys =>
    have hne : k' ≠ k := fun h => (List.nodup_cons.mp hkeys).1 (h ▸ List.mem_cons_self)
    simp only [choices, Dict.insert_comm hne]
    exact flatMap_comm _ _ _
  | trans h _ ih ih' => exact (ih hkeys m).trans (ih' (h.nodup_iff.mp hkeys) m)

theorem choices_congr {values' : String → List β} (h : ∀ k ∈ keys, values k = values' k)
    (m : Dict β) : choices values m keys = choices values' m keys := by
  induction keys generalizing m with
  | nil => rfl
  | cons k keys ih =>
    rw [choices, choices, h k List.mem_cons_self]
    exact List.flatMap_congr fun v _ => ih (fun a ha => h a (List.mem_cons_of_mem k ha)) _

/-- A key without values leaves no choice. -/
theorem choices_eq_nil {k : String} (hk : k ∈ keys) (h : values k = []) (m : Dict β) :
    choices values m keys = [] := by
  have hnone : [] ∈ keys.map values := List.mem_map.mpr ⟨k, hk, h⟩
  rw [← map_tuples, tuples_eq_nil hnone, List.map_nil]

/-- A key that is not chosen may be set before or after. -/
theorem choices_insert {k : String} (hk : k ∉ keys) (m : Dict β) (v : β) :
    choices values (m.insert k v) keys = (choices values m keys).map (·.insert k v) := by
  induction keys generalizing m with
  | nil => rfl
  | cons a keys ih =>
    obtain ⟨hne, hk⟩ := not_or.mp (mt List.mem_cons.mpr hk)
    rw [choices, choices, List.map_flatMap]
    refine List.flatMap_congr fun w _ => ?_
    rw [Dict.insert_comm hne, ih hk]

/-- A choice gives each key one of its values, and leaves the others. -/
theorem get_of_mem_choices {m' : Dict β} (h : m' ∈ choices values m keys) (k : String) :
    (k ∈ keys → ∃ v ∈ values k, m'[k]? = some v) ∧ (k ∉ keys → m'[k]? = m[k]?) := by
  induction keys generalizing m with
  | nil => exact ⟨fun hk => absurd hk List.not_mem_nil, fun _ => by rw [List.mem_singleton.mp h]⟩
  | cons a keys ih =>
    obtain ⟨v, hv, h⟩ := List.mem_flatMap.mp h
    obtain ⟨hin, hout⟩ := ih h
    constructor
    · intro hk
      by_cases hrest : k ∈ keys
      · exact hin hrest
      · obtain rfl := (List.mem_cons.mp hk).resolve_right hrest
        exact ⟨v, hv, by simp [hout hrest]⟩
    · intro hk
      obtain ⟨hne, hrest⟩ := not_or.mp (mt List.mem_cons.mpr hk)
      rw [hout hrest, Dict.get_insert, if_neg (Ne.symm hne)]

theorem choices_ne_nil (h : ∀ k ∈ keys, values k ≠ []) (m : Dict β) :
    choices values m keys ≠ [] := by
  induction keys generalizing m with
  | nil => exact List.cons_ne_nil _ _
  | cons k keys ih =>
    obtain ⟨v, l, hv⟩ := List.exists_cons_of_ne_nil (h k List.mem_cons_self)
    rw [choices, hv, List.flatMap_cons]
    exact List.append_ne_nil_of_left_ne_nil
      (ih (fun a ha => h a (List.mem_cons_of_mem k ha)) _) _

/-- Other keys and the same values give the same choices under the other keys. -/
theorem choices_rekey {values' : String → List β} {f : String → String} (hf : Function.Injective f)
    (h : ∀ k ∈ keys, values' (f k) = values k) {m m' : Dict β} (hm : ∀ k : String, m'[f k]? = m[k]?) :
    List.Forall₂ (fun v v' : Dict β => ∀ k : String, v'[f k]? = v[k]?) (choices values m keys)
      (choices values' m' (keys.map f)) := by
  induction keys generalizing m m' with
  | nil => exact .cons hm .nil
  | cons k keys ih =>
    rw [List.map_cons, choices, choices, h k List.mem_cons_self]
    have hrel : List.Forall₂ (fun v v' : β => v = v') (values k) (values k) :=
      List.forall₂_same.mpr fun _ _ => rfl
    refine List.rel_flatMap hrel fun v v' hv => ?_
    subst hv
    refine ih (fun a ha => h a (List.mem_cons_of_mem k ha)) fun a => ?_
    simp only [Dict.get_insert, hf.eq_iff, hm]

theorem length_choices (keys : List String) (m : Dict β) :
    (choices values m keys).length = (keys.map fun k => (values k).length).prod := by
  rw [← map_tuples, List.length_map, length_tuples, List.map_map]
  rfl

/-- Factors that are no larger and have the same product are the same. -/
theorem eq_of_prod_eq {f g : String → Nat} (hle : ∀ k ∈ keys, f k ≤ g k)
    (hpos : ∀ k ∈ keys, 0 < f k) (h : (keys.map f).prod = (keys.map g).prod) :
    ∀ k ∈ keys, f k = g k := by
  have hprod : ∀ l : List String, (∀ k ∈ l, f k ≤ g k) → (l.map f).prod ≤ (l.map g).prod := by
    intro l
    induction l with
    | nil => intro _; exact Nat.le_refl _
    | cons a l ih =>
      intro hl
      exact Nat.mul_le_mul (hl a List.mem_cons_self) (ih fun k hk => hl k (List.mem_cons_of_mem a hk))
  induction keys with
  | nil => intro k hk; cases hk
  | cons a keys ih =>
    have hrest := hprod keys fun k hk => hle k (List.mem_cons_of_mem a hk)
    have hle' := hle a List.mem_cons_self
    have hposA := hpos a List.mem_cons_self
    have hposR : 0 < (keys.map f).prod :=
      List.prod_pos fun n hn => by
        obtain ⟨k, hk, rfl⟩ := List.mem_map.mp hn
        exact hpos k (List.mem_cons_of_mem a hk)
    simp only [List.map_cons, List.prod_cons] at h
    have hhead : f a = g a := by
      refine Nat.le_antisymm hle' (not_lt.mp fun hlt => ?_)
      exact absurd h (Nat.ne_of_lt (Nat.mul_lt_mul_of_lt_of_le hlt hrest (hposR.trans_le hrest)))
    rw [hhead] at h hposA
    have htail := ih (fun k hk => hle k (List.mem_cons_of_mem a hk))
      (fun k hk => hpos k (List.mem_cons_of_mem a hk)) (Nat.eq_of_mul_eq_mul_left hposA h)
    intro k hk
    rcases List.mem_cons.mp hk with rfl | hk
    · exact hhead
    · exact htail k hk

end Choices

end Ldap2pg.Lib
