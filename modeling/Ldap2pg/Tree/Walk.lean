import Ldap2pg.Tree

/-! # `Walk` as the code runs it

`walkOne` sorts the parents of a name in place, in the map of the caller, and adds the
name to a set once it is listed. `walk_eq`: what `Walk` returns is the enumeration of
`Tree.walk`, in which the parents come sorted from the map as it was given. From
there, the order of the parents and of the keys does not matter. No two keys of a map
are taken to share a slice. -/
namespace Ldap2pg.Tree.Walk
open Lib Lib.Digraph

/-- `slices.Sort`. -/
def sort (l : List String) : List String := l.mergeSort fun a b => decide (a ≤ b)

/-- What the calls of `walkOne` share: the map of the caller and the set of the names
that are listed. -/
structure State where
  groups : Dict (List String)
  seen : List String

/-- `slices.Sort(parents)`, where `parents` is the slice of `name`. -/
def sortParents (groups : Dict (List String)) (name : String) : Dict (List String) :=
  match groups[name]? with
  | none => groups
  | some parents => groups.insert name (sort parents)

/-- A loop that appends what `walk` returns for each name. -/
def appendEach (walk : String → State → Option (List String × State)) (names : List String)
    (st : State) : Option (List String × State) :=
  names.foldlM (fun acc name => do
    let (order, st) ← walk name acc.2
    return (acc.1 ++ order, st)) (([] : List String), st)

/-- `walkOne`. Fuel bounds the depth of the recursion. -/
def walkOne : Nat → String → State → Option (List String × State)
  | 0, _, _ => none
  | fuel + 1, name, st =>
    if name ∈ st.seen then some ([], st)
    else do
      let groups := sortParents st.groups name
      let (order, st) ← appendEach (walkOne fuel) (Dict.listAt groups name) { st with groups }
      return (order ++ [name], { st with seen := st.seen ++ [name] })

/-- `Walk`, with the map as it leaves it. The keys come in any order. -/
def walk (o : Order) (heritance : Dict (List String)) : Option (List String × State) :=
  appendEach (walkOne (names heritance).length) (sort (o.range heritance.keys)) ⟨heritance, []⟩

/-! ## Sorting -/

theorem pairwise_sort (l : List String) : (sort l).Pairwise (· ≤ ·) := by
  have htrans : ∀ a b c : String, decide (a ≤ b) = true → decide (b ≤ c) = true →
      decide (a ≤ c) = true := by
    intro a b c hab hbc
    exact decide_eq_true (le_trans (of_decide_eq_true hab) (of_decide_eq_true hbc))
  have htotal : ∀ a b : String, (decide (a ≤ b) || decide (b ≤ a)) = true := by
    intro a b
    simpa using le_total a b
  exact (List.pairwise_mergeSort htrans htotal l).imp of_decide_eq_true

theorem sort_perm (l : List String) : (sort l).Perm l := List.mergeSort_perm _ _

/-- What is sorted is the same list for every order it came in. -/
theorem sort_eq_of_perm {l l' : List String} (h : l.Perm l') (hl' : l'.Pairwise (· ≤ ·)) :
    sort l = l' :=
  ((sort_perm l).trans h).eq_of_pairwise (fun _ _ _ _ => le_antisymm) (pairwise_sort l) hl'

theorem pairwise_parents (heritance : Dict (List String)) (name : String) :
    (parents heritance name).Pairwise (· ≤ ·) := pairwise_sort _

theorem pairwise_keys (heritance : Dict (List String)) : heritance.keys.Pairwise (· ≤ ·) :=
  Std.ExtTreeMap.ordered_keys.imp fun h => le_of_lt (compare_lt_iff_lt.mp h)

theorem sort_keys (o : Order) (heritance : Dict (List String)) :
    sort (o.range heritance.keys) = heritance.keys :=
  sort_eq_of_perm (o.range_perm _) (pairwise_keys heritance)

/-! ## The code follows the enumeration -/

/-- The map holds the parents of the caller, sorted or not yet. -/
def Holds (heritance groups : Dict (List String)) : Prop :=
  ∀ name, sort (Dict.listAt groups name) = parents heritance name

theorem listAt_sortParents (groups : Dict (List String)) (name other : String) :
    Dict.listAt (sortParents groups name) other =
      if name = other then sort (Dict.listAt groups name) else Dict.listAt groups other := by
  cases hget : groups[name]? with
  | none =>
    simp only [sortParents, hget]
    split
    · next h => subst h; simp [Dict.listAt, hget, sort]
    · rfl
  | some parents =>
    simp only [sortParents, hget]
    rw [Dict.listAt_insert]
    simp [Dict.listAt, hget]

variable {heritance groups : Dict (List String)}

theorem Holds.parents_eq (h : Holds heritance groups) (name : String) :
    Dict.listAt (sortParents groups name) name = parents heritance name := by
  rw [listAt_sortParents, if_pos rfl, h name]

theorem Holds.sortParents (h : Holds heritance groups) (name : String) :
    Holds heritance (sortParents groups name) := by
  intro other
  rw [listAt_sortParents]
  split
  · next heq =>
    subst heq
    rw [sort_eq_of_perm (List.Perm.refl _) (pairwise_sort _), h name]
  · exact h other

/-- **`walkOne` is the depth-first visit** of the parents. -/
theorem walkOne_follows (fuel : Nat) : ∀ (name : String) (st : State),
    Holds heritance st.groups →
    Follows (fun st => Holds heritance st.groups) State.seen st.seen
      (visit (parents heritance) fuel name st.seen) (walkOne fuel name st) := by
  induction fuel with
  | zero => intro name st _; exact .stuck
  | succ fuel ih =>
    intro name st hst
    rw [visit, walkOne]
    split
    · exact Follows.skip hst
    · have hloop := Follows.foldlM (fun out y => visit (parents heritance) fuel y out)
        (walkOne fuel) id (fun parent (_ : parent ∈ parents heritance name) => ih parent)
        ⟨sortParents st.groups name, st.seen⟩ (hst.sortParents name)
      rw [List.map_id] at hloop
      simp only [hst.parents_eq name]
      exact hloop.snoc name (fun st => ⟨st.groups, st.seen ++ [name]⟩) fun _ hs => ⟨hs, rfl⟩

/-- **`Walk` is the enumeration**, whatever the order of the keys. -/
theorem walk_eq (o : Order) (heritance : Dict (List String)) :
    (walk o heritance).map Prod.fst = Tree.walk heritance := by
  have h : Follows (fun st => Holds heritance st.groups) State.seen []
      (visitAll (parents heritance) (names heritance).length (heritance.keys.map id) [])
      (appendEach (walkOne (names heritance).length) heritance.keys ⟨heritance, []⟩) :=
    Follows.foldlM (fun out y => visit (parents heritance) (names heritance).length y out) _ id
      (fun key _ => walkOne_follows _ key) (⟨heritance, []⟩ : State) fun name => rfl
  rw [List.map_id] at h
  rw [walk, sort_keys, Tree.walk]
  exact h.map_fst

/-! ## Maps with the same parents -/

/-- The same keys with the same parents, in any order and any number of times. -/
structure SameParents (heritance heritance' : Dict (List String)) : Prop where
  keys : ∀ key : String, key ∈ heritance ↔ key ∈ heritance'
  edges : ∀ name parent : String,
    parent ∈ Dict.listAt heritance name ↔ parent ∈ Dict.listAt heritance' name

variable {heritance' : Dict (List String)}

theorem SameParents.keys_eq (h : SameParents heritance heritance') :
    heritance.keys = heritance'.keys := by
  have hperm : heritance.keys.Perm heritance'.keys :=
    (List.perm_ext_iff_of_nodup Std.ExtTreeMap.nodup_keys Std.ExtTreeMap.nodup_keys).mpr
      fun key => by simp [h.keys key]
  exact hperm.eq_of_pairwise (fun _ _ _ _ => le_antisymm) (pairwise_keys _) (pairwise_keys _)

theorem SameParents.acyclic (h : SameParents heritance heritance')
    (ha : Acyclic (Dict.listAt heritance)) : Acyclic (Dict.listAt heritance') := by
  have hedge : Edge (Dict.listAt heritance') = Edge (Dict.listAt heritance) :=
    funext fun name => funext fun parent => propext (h.edges name parent).symm
  unfold Acyclic
  rw [hedge]
  exact ha

theorem SameParents.walk_eq (h : SameParents heritance heritance')
    (ha : Acyclic (Dict.listAt heritance)) : Tree.walk heritance' = Tree.walk heritance := by
  obtain ⟨out, hout, _⟩ := walk_extends ha
  obtain ⟨out', hout', _⟩ := walk_extends (h.acyclic ha)
  have hsame : visitAll (parents heritance) (names heritance').length heritance.keys [] =
      some out' := by
    rw [← hout', Tree.walk, h.keys_eq]
    exact visitAll_congr (pairwise_parents _) (pairwise_parents _)
      (fun name parent => by simp [h.edges name parent]) _ _ _
  -- the two walks differ by their fuels only
  have hmax := visitAll_mono (Nat.le_max_left _ (names heritance').length) hout
  have hmax' := visitAll_mono (Nat.le_max_right (names heritance).length _) hsame
  rw [hout, hout', Option.some.inj (hmax.symm.trans hmax')]

/-- **`Walk` is a canonical topological order.** Without a loop, it lists the keys and
all that they lead to, each name once and after its parents; the map may come in any
order, with its parents in any order and repeated. -/
theorem walk_canonical (ha : Acyclic (Dict.listAt heritance)) :
    ∃ out : List String, out.Nodup ∧
      (∀ name, name ∈ out ↔
        ∃ key, key ∈ heritance ∧
          Relation.ReflTransGen (Edge (Dict.listAt heritance)) key name) ∧
      (∀ before child after, out = before ++ child :: after →
        ∀ parent ∈ Dict.listAt heritance child, parent ∈ before) ∧
      ∀ (o : Order) (heritance' : Dict (List String)), SameParents heritance heritance' →
        ∃ st, walk o heritance' = some (out, st) := by
  obtain ⟨out, hout, hextends⟩ := walk_extends ha
  refine ⟨out, hextends.topological.nodup, fun name => ⟨fun hname => ?_, ?_⟩, ?_, ?_⟩
  · obtain ⟨key, hkey, hreach⟩ := (hextends.reached name hname).resolve_left List.not_mem_nil
    exact ⟨key, Std.ExtTreeMap.mem_keys.mp hkey, edge_parents ▸ hreach⟩
  · intro ⟨key, hkey, hreach⟩
    rw [← edge_parents] at hreach
    have hlisted := hextends.covers key (Std.ExtTreeMap.mem_keys.mpr hkey)
    rcases Relation.reflTransGen_iff_eq_or_transGen.mp hreach with rfl | hreach
    · exact hlisted
    · obtain ⟨before, after, hsplit⟩ := List.append_of_mem hlisted
      rw [hsplit]
      exact List.mem_append_left _ (hextends.topological.before hsplit hreach)
  · intro before child after hsplit parent hparent
    exact hextends.topological.closed before child after hsplit parent (mem_parents.mpr hparent)
  · intro o heritance' hsame
    have hwalk := Walk.walk_eq o heritance'
    rw [hsame.walk_eq ha, hout] at hwalk
    obtain ⟨⟨out', st⟩, hst, rfl⟩ := Option.map_eq_some_iff.mp hwalk
    exact ⟨st, hst⟩

/-- A parent that is not a key, and is repeated. -/
def family : Dict (List String) := ((∅ : Dict _).insert "c" ["b", "a"]).insert "b" ["a", "a"]

theorem family_walked : ∃ out : List String, out.Nodup ∧ "a" ∈ out ∧
    ∀ o : Order, ∃ st, walk o family = some (out, st) := by
  have hacyclic : Acyclic (Dict.listAt family) := by
    refine acyclic_of_rank (fun name => if name = "c" then 2 else if name = "b" then 1 else 0) ?_
    intro name parent hparent
    rw [family, Dict.listAt_insert, Dict.listAt_insert] at hparent
    split at hparent
    · next h => subst h; simp_all
    · split at hparent
      · next h => subst h; rcases List.mem_cons.mp hparent with rfl | hparent <;> simp_all
      · simp at hparent
  obtain ⟨out, hnodup, hmem, _, hwalk⟩ := walk_canonical hacyclic
  have hkey : "b" ∈ family := Dict.mem_iff.mpr ⟨["a", "a"], by simp [family]⟩
  have hparent : Edge (Dict.listAt family) "b" "a" := by simp [Edge, family]
  exact ⟨out, hnodup, (hmem "a").mpr ⟨"b", hkey, .single hparent⟩,
    fun o => hwalk o family ⟨fun _ => Iff.rfl, fun _ _ => Iff.rfl⟩⟩

end Ldap2pg.Tree.Walk
