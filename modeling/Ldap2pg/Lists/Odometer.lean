import Ldap2pg.Lib.Slice
import Ldap2pg.Lib.Loops
import Ldap2pg.Lists

/-! # The odometer of `Product`

`Product` keeps one position for each list in `indices` and the values there in
`combination`. Both change in place, from the last list to the first. What is sent
is a clone of `combination`.

Arrays are on a heap here: a clone that shared its array with `combination`, or
with another clone, would be seen. The receiver holds the clones it got and may
write in them before it takes the next one. -/
namespace Ldap2pg.Lists.Odometer
open Lib

/-- What a receiver does after each reception: it may write in the arrays it got and
allocate some, and has no other. -/
structure Receiver (α : Type) where
  act : List Nat → Heap α → Heap α
  grows : ∀ sent h, h.length ≤ (act sent h).length
  frame : ∀ sent h a, a < h.length → a ∉ sent → (act sent h).cells a = h.cells a

/-- The variables of the goroutine. `sent` has the array of each clone, and what was in it
when it was sent. -/
structure State (α : Type) where
  indices : List Nat
  combination : Nat
  heap : Heap α
  sent : List (Nat × List α) := []

section Code
variable {α β : Type} (zero : α) (recv : Receiver α) (lists : List (List α))

/-- `l[i]`. -/
def get (l : List β) (i : Nat) : Except String β :=
  match l[i]? with
  | some x => .ok x
  | none => .error "index out of range"

/-- `l[i] = x`. -/
def put (l : List β) (i : Nat) (x : β) : Except String (List β) :=
  if i < l.length then .ok (l.set i x) else .error "index out of range"

/-- `combination[i] = value`. -/
def State.store (st : State α) (i : Nat) (value : α) : Except String (State α) := do
  let cells ← put (st.heap.cells st.combination) i value
  return { st with heap := st.heap.set st.combination cells }

/-- `clone := make([]T, len(combination)); copy(clone, combination); ch <- clone`. -/
def State.send (st : State α) : State α :=
  let clone := st.heap.length
  let combination := st.heap.cells st.combination
  let heap : Heap α := st.heap ++ [List.replicate combination.length zero]
  let heap : Heap α := heap.set clone (overlay (heap.cells clone) 0 combination)
  let sent := st.sent ++ [(clone, heap.cells clone)]
  { st with heap := recv.act (sent.map Prod.fst) heap, sent := sent }

/-- The first loop. `none` when a list is empty: multiplying by empty breaks everything. -/
def fill : List (List α × Nat) → State α → Except String (Option (State α))
  | [], st => .ok (some st)
  | ([], _) :: _, _ => .ok none
  | (value :: _, i) :: rest, st => do fill rest (← st.store i value)

/-- The inner loop, with `i` one above the source's. `none` when it has rolled over all
lists. -/
def turn : Nat → State α → Except String (Option (State α))
  | 0, _ => .ok none
  | i + 1, st => do
    let list ← get lists i
    let index := (← get st.indices i) + 1
    let index := if index = list.length then 0 else index
    let indices ← put st.indices i index
    let st ← { st with indices := indices }.store i (← get list index)
    if 0 < index then return some st
    turn i st

/-- The outer loop. `none` when it is not over yet. -/
def loop : Nat → State α → Except String (Option (State α))
  | 0, _ => .ok none
  | fuel + 1, st => do
    match ← turn lists lists.length st with
    | none => return some st
    | some st => loop fuel (st.send zero recv)

/-- `indices` and `combination` as they are made. -/
def State.make : State α where
  indices := List.replicate lists.length 0
  combination := 0
  heap := [List.replicate lists.length zero]

/-- The goroutine of `Product`: what it sends. -/
def run (fuel : Nat) : Except String (Option (List (Nat × List α))) := do
  if lists.isEmpty then return some []
  match ← fill lists.zipIdx (State.make zero lists) with
  | none => return some []
  | some st => return (← loop zero recv lists fuel (st.send zero recv)).map State.sent

end Code

section Refinement
variable {α β : Type} {zero : α} {recv : Receiver α} {lists : List (List α)} {st : State α}
  {zs : List (List α × Nat)}

theorem get_eq {l : List β} {i : Nat} {x : β} (h : l[i]? = some x) : get l i = .ok x := by
  rw [get, h]

theorem put_eq {l : List β} {i : Nat} (x : β) (h : i < l.length) : put l i x = .ok (l.set i x) :=
  if_pos h

/-- A store changes one value of the tuple. -/
theorem store_ok {i : Nat} (value : α) (hi : i < (st.heap.cells st.combination).length) :
    ∃ st', st.store i value = .ok st' ∧
      st'.heap.cells st'.combination = (st.heap.cells st.combination).set i value ∧
      st'.indices = st.indices ∧ st'.sent = st.sent ∧ st'.combination = st.combination ∧
      st'.heap.length = st.heap.length := by
  refine ⟨{ st with
      heap := st.heap.set st.combination ((st.heap.cells st.combination).set i value) },
    ?_, ?_, rfl, rfl, rfl, List.length_set⟩
  · rw [State.store, put_eq value hi]
    rfl
  · show Heap.cells (st.heap.set _ _) _ = _
    rw [Heap.cells_set, if_pos ⟨rfl, Heap.lt_of_cells (Nat.zero_lt_of_lt hi)⟩]

/-- The positions and the values are those of `zs`. -/
structure Shows (st : State α) (zs : List (List α × Nat)) : Prop where
  indices : st.indices = zs.map Prod.snd
  cells : st.heap.cells st.combination = combination zs
  live : st.combination < st.heap.length

/-- Every clone has an array of its own. -/
structure Apart (st : State α) : Prop where
  nodup : (st.sent.map Prod.fst).Nodup
  live : ∀ a ∈ st.sent.map Prod.fst, a < st.heap.length
  combination : st.combination ∉ st.sent.map Prod.fst

theorem length_combination (h : Inside zs) : (combination zs).length = zs.length := by
  induction zs with
  | nil => rfl
  | cons x zs ih =>
    obtain ⟨hx, hzs⟩ := List.forall_mem_cons.mp h
    simpa [combination, hx] using ih hzs

theorem combination_append (zs zs' : List (List α × Nat)) :
    combination (zs ++ zs') = combination zs ++ combination zs' := List.filterMap_append

/-- Moving one position, in the tuple of positions and in the tuple of values. -/
theorem Shows.move {pre suf : List (List α × Nat)} {l : List α} {i j : Nat} {value : α}
    (h : Shows st (pre ++ (l, i) :: suf)) (hpre : Inside pre) (hi : i < l.length)
    (hj : l[j]? = some value) : ∃ st',
      put st.indices pre.length j = .ok st'.indices ∧
        { st with indices := st'.indices }.store pre.length value = .ok st' ∧
        Shows st' (pre ++ (l, j) :: suf) ∧ st'.sent = st.sent ∧
        st'.combination = st.combination ∧ st'.heap.length = st.heap.length := by
  have hvalues : ∀ {k : Nat} {v : α}, l[k]? = some v →
      combination (pre ++ (l, k) :: suf) = combination pre ++ v :: combination suf := by
    intro k v hk
    simp [combination, hk]
  have hcells := h.cells
  rw [hvalues (List.getElem?_eq_getElem hi)] at hcells
  have hindices : pre.length < st.indices.length := by simp [h.indices]
  have hroom : pre.length < (st.heap.cells st.combination).length := by
    rw [hcells]
    simp [length_combination hpre]
  have hmoved : ∃ st', State.store { st with indices := st.indices.set pre.length j } _ value =
    .ok st' ∧ _ := store_ok value hroom
  obtain ⟨st', hstore, hset, hsame, hsent, hcomb, hheap⟩ := hmoved
  refine ⟨st', by rw [hsame, put_eq j hindices], by rw [hsame, hstore], ⟨?_, ?_, ?_⟩, hsent, hcomb,
    hheap⟩
  · simp [hsame, h.indices]
  · rw [hset, hvalues hj]
    show List.set (st.heap.cells st.combination) pre.length value = _
    rw [hcells, ← length_combination hpre]
    simp
  · rw [hcomb, hheap]
    exact h.live

/-- Positions that move at the end of a tuple leave the ones before. -/
theorem advance_append {pre suf suf' : List (List α × Nat)} (h : advance suf = some suf') :
    advance (pre ++ suf) = some (pre ++ suf') := by
  induction pre with
  | nil => exact h
  | cons x pre ih => rw [List.cons_append, advance, ih, List.cons_append]

def restart (zs : List (List α × Nat)) : List (List α × Nat) := zs.map fun x => (x.1, 0)

/-- **The inner loop is `advance`**: the lists of `suf` have rolled over, those of `pre` are
still to be moved. -/
theorem turn_eq {pre suf : List (List α × Nat)} (hlists : (pre ++ suf).map Prod.fst = lists)
    (hinside : Inside (pre ++ suf)) (hsuf : advance suf = none) (h : Shows st (pre ++ restart suf)) :
    match advance (pre ++ suf) with
    | none => turn lists pre.length st = .ok none
    | some zs' => ∃ st', turn lists pre.length st = .ok (some st') ∧ Shows st' zs' ∧
        st'.sent = st.sent ∧ st'.combination = st.combination ∧
        st'.heap.length = st.heap.length := by
  induction pre using List.reverseRecOn generalizing suf st with
  | nil =>
    rw [List.nil_append, hsuf]
    rfl
  | append_singleton pre x ih =>
    obtain ⟨l, i⟩ := x
    simp only [List.append_assoc, List.cons_append, List.nil_append] at hlists hinside h ⊢
    have hpre : Inside pre := fun y hy => hinside y (List.mem_append_left _ hy)
    have hi : i < l.length := hinside (l, i) (List.mem_append_right _ List.mem_cons_self)
    have hlist : get lists pre.length = .ok l := get_eq (by simp [← hlists])
    have hindex : get st.indices pre.length = .ok i := get_eq (by simp [h.indices])
    rw [List.length_append, List.length_singleton, turn, hlist, ok_bind, hindex, ok_bind]
    by_cases hend : i + 1 = l.length
    · -- this list starts again, and the one before it moves
      have hzero : l[0]? = some l[0] := List.getElem?_eq_getElem (Nat.zero_lt_of_lt hi)
      obtain ⟨st', hput, hstore, hshows, hsent, hcomb, hlen⟩ := h.move hpre hi hzero
      have hnone : advance ((l, i) :: suf) = none := by
        rw [advance, hsuf]
        exact if_pos hend
      have hrest := ih hlists hinside hnone hshows
      simp only [hend, if_true, hput, get_eq hzero, hstore, ok_bind, Nat.lt_irrefl, if_false]
      rw [hsent, hcomb, hlen] at hrest
      exact hrest
    · have hmove : advance ((l, i) :: suf) = some ((l, i + 1) :: restart suf) := by
        rw [advance, hsuf]
        exact if_neg hend
      have hnext : l[i + 1]? = some l[i + 1] :=
        List.getElem?_eq_getElem (Nat.lt_of_le_of_ne hi hend)
      obtain ⟨st', hput, hstore, hshows, hframe⟩ := h.move hpre hi hnext
      rw [advance_append hmove]
      refine ⟨st', ?_, hshows, hframe⟩
      simp only [hend, if_false, hput, get_eq hnext, hstore, ok_bind, Nat.succ_pos, if_true]
      rfl

/-- The heap after a clone is made and copied to. -/
def State.cloned (st : State α) : Heap α := st.heap ++ [st.heap.cells st.combination]

theorem send_eq (st : State α) : st.send zero recv = { st with
    heap := recv.act (st.sent.map Prod.fst ++ [st.heap.length]) st.cloned
    sent := st.sent ++ [(st.heap.length, st.heap.cells st.combination)] } := by
  have hcopy : overlay (List.replicate (st.heap.cells st.combination).length zero) 0
      (st.heap.cells st.combination) = st.heap.cells st.combination := by
    simp [overlay]
  have hmade : (st.heap ++ [List.replicate (st.heap.cells st.combination).length zero] : Heap α).cells
      st.heap.length = List.replicate (st.heap.cells st.combination).length zero := by
    rw [Heap.cells_snoc, if_pos rfl]
  have hset : (st.heap ++ [List.replicate (st.heap.cells st.combination).length zero]).set
      st.heap.length (st.heap.cells st.combination) = st.cloned := by
    simp [State.cloned]
  have hread : st.cloned.cells st.heap.length = st.heap.cells st.combination := by
    rw [State.cloned, Heap.cells_snoc, if_pos rfl]
  simp only [State.send, hmade, hcopy, hset, hread, List.map_append, List.map_cons, List.map_nil]

/-- A clone has the values, in an array that is new and that the receiver did not have. -/
theorem Shows.send (h : Shows st zs) (hapart : Apart st) :
    Shows (st.send zero recv) zs ∧ Apart (st.send zero recv) ∧
      (st.send zero recv).sent.map Prod.snd = st.sent.map Prod.snd ++ [combination zs] := by
  have hlen : st.cloned.length = st.heap.length + 1 := by simp [State.cloned]
  have hgrows := recv.grows (st.sent.map Prod.fst ++ [st.heap.length]) st.cloned
  have hlive : st.combination < st.cloned.length := hlen ▸ Nat.lt_succ_of_lt h.live
  have hcomb : st.combination ∉ st.sent.map Prod.fst ++ [st.heap.length] := by
    rw [List.mem_append, List.mem_singleton, not_or]
    exact ⟨hapart.combination, Nat.ne_of_lt h.live⟩
  have hnew : st.heap.length ∉ st.sent.map Prod.fst := fun ha => Nat.lt_irrefl _ (hapart.live _ ha)
  rw [send_eq]
  refine ⟨⟨h.indices, ?_, hlive.trans_le hgrows⟩, ⟨?_, ?_, ?_⟩, ?_⟩
  · show (recv.act _ st.cloned).cells st.combination = _
    rw [recv.frame _ _ _ hlive hcomb, State.cloned, Heap.cells_snoc, if_neg (Nat.ne_of_lt h.live),
      h.cells]
  · rw [List.map_append]
    exact hapart.nodup.append (List.nodup_singleton _) (List.disjoint_singleton.mpr hnew)
  · intro a ha
    rw [List.map_append, List.mem_append, List.map_singleton, List.mem_singleton] at ha
    refine Nat.lt_of_lt_of_le ?_ hgrows
    rw [hlen, Nat.lt_succ_iff]
    rcases ha with ha | rfl
    · exact Nat.le_of_lt (hapart.live a ha)
    · exact Nat.le_refl _
  · rw [List.map_append]
    exact hcomb
  · simp [h.cells]

/-- The outer loop sends what is left after the current tuple. -/
theorem loop_eq {n : Nat} (hlists : zs.map Prod.fst = lists) (hinside : Inside zs)
    (h : Shows st zs) (hapart : Apart st) (hn : (remaining zs).length = n) : ∃ st',
      (∀ fuel ≥ n, loop zero recv lists fuel st = .ok (some st')) ∧ Apart st' ∧
        st'.combination = st.combination ∧
        st'.sent.map Prod.snd = st.sent.map Prod.snd ++ (remaining zs).tail := by
  induction n generalizing st zs with
  | zero =>
    rw [remaining_step hinside] at hn
    cases hn
  | succ n ih =>
    have hlen : zs.length = lists.length := by rw [← hlists, List.length_map]
    have hstart : Shows st (zs ++ restart []) := by rwa [restart, List.map_nil, List.append_nil]
    have hturn := turn_eq (by rwa [List.append_nil] : (zs ++ []).map Prod.fst = lists)
      (by rwa [List.append_nil]) rfl hstart
    rw [List.append_nil, hlen] at hturn
    rw [remaining_step hinside] at hn ⊢
    cases hadvance : advance zs with
    | none =>
      rw [hadvance] at hturn
      refine ⟨st, fun fuel hfuel => ?_, hapart, rfl, by simp⟩
      obtain ⟨fuel, rfl⟩ := Nat.exists_eq_add_of_le' (Nat.zero_lt_of_lt hfuel)
      rw [loop, hturn]
      rfl
    | some zs' =>
      rw [hadvance] at hturn hn
      obtain ⟨st', hst', hshows, hsent, hcomb, hheap⟩ := hturn
      have hapart' : Apart st' :=
        ⟨hsent ▸ hapart.nodup, fun a ha => by rw [hheap]; exact hapart.live a (hsent ▸ ha),
          by rw [hcomb, hsent]; exact hapart.combination⟩
      obtain ⟨hshows, hapart', hclone⟩ : Shows (st'.send zero recv) zs' ∧ _ ∧ _ :=
        hshows.send hapart'
      have hinside' := advance_inside hinside hadvance
      obtain ⟨last, hlast, hends, hcomb', hout⟩ := ih ((advance_lists hadvance).trans hlists)
        hinside' hshows hapart' (Nat.succ.inj hn)
      refine ⟨last, fun fuel hfuel => ?_, hends, hcomb'.trans (by rw [send_eq]; exact hcomb), ?_⟩
      · obtain ⟨fuel, rfl⟩ := Nat.exists_eq_add_of_le' (Nat.zero_lt_of_lt hfuel)
        rw [loop, hst']
        exact hlast fuel (Nat.le_of_succ_le_succ hfuel)
      · rw [hout, hclone, hsent, Option.elim_some, List.tail_cons, List.append_assoc,
          remaining_step hinside']
        rfl

/-- The first loop takes the first value of each list, unless one has none. -/
theorem fill_eq {done rest : List (List α)} (hlists : done ++ rest = lists)
    (hindices : st.indices = List.replicate lists.length 0)
    (hcells : (st.heap.cells st.combination).length = lists.length) (hdone : [] ∉ done)
    (htake : (st.heap.cells st.combination).take done.length = combination (done.map (·, 0)))
    (hlive : st.combination < st.heap.length) :
    [] ∈ rest ∧ fill (rest.zipIdx done.length) st = .ok none ∨
      [] ∉ rest ∧ ∃ st', fill (rest.zipIdx done.length) st = .ok (some st') ∧
        Shows st' (lists.map (·, 0)) ∧ st'.sent = st.sent ∧ st'.combination = st.combination := by
  induction rest generalizing done st with
  | nil =>
    rw [List.append_nil] at hlists
    subst hlists
    rw [List.take_of_length_le (Nat.le_of_eq hcells)] at htake
    refine .inr ⟨List.not_mem_nil, st, rfl, ⟨?_, htake, hlive⟩, rfl, rfl⟩
    simp [hindices, Function.comp_def]
  | cons l rest ih =>
    cases l with
    | nil => exact .inl ⟨List.mem_cons_self, rfl⟩
    | cons value l =>
      have hroom : done.length < (st.heap.cells st.combination).length := by
        rw [hcells, ← hlists]
        simp
      obtain ⟨st', hstore, hset, hsame, hsent, hcomb, hheap⟩ := store_ok value hroom
      have hlists' : (done ++ [value :: l]) ++ rest = lists := by simpa using hlists
      have htake' : (st'.heap.cells st'.combination).take (done ++ [value :: l]).length =
          combination ((done ++ [value :: l]).map (·, 0)) := by
        rw [List.map_append, combination_append, ← htake, hset]
        rw [List.length_append, List.length_singleton, List.take_add_one,
          List.take_set_of_le (Nat.le_refl _), List.getElem?_set_self hroom]
        rfl
      have hnext := ih hlists' (hsame.trans hindices) (by rw [hset, List.length_set, hcells])
        (by simpa using hdone) htake' (by rw [hcomb, hheap]; exact hlive)
      rw [List.length_append, List.length_singleton, hsent, hcomb] at hnext
      rw [List.zipIdx_cons, fill, hstore, ok_bind]
      refine hnext.imp (fun h => ⟨List.mem_cons_of_mem _ h.1, h.2⟩) fun h => ⟨?_, h.2⟩
      simpa using h.1

/-- **The odometer refines `product`**: it stops, with the clones of the tuples in this
order, each in an array of its own. -/
theorem run_eq (zero : α) (recv : Receiver α) (lists : List (List α)) : ∃ out,
    (∀ fuel, (lists.map List.length).prod ≤ fuel → run zero recv lists fuel = .ok (some out)) ∧
      (out.map Prod.fst).Nodup ∧ 0 ∉ out.map Prod.fst ∧ out.map Prod.snd = product lists := by
  by_cases hnone : lists = []
  · subst hnone
    exact ⟨[], fun _ _ => rfl, List.nodup_nil, List.not_mem_nil, rfl⟩
  have hfirst : lists.isEmpty = false := by simpa using hnone
  have hmade : ((State.make zero lists).heap.cells (State.make zero lists).combination).length =
      lists.length := List.length_replicate
  have hrun : ∀ fuel, run zero recv lists fuel = (do
      match ← fill lists.zipIdx (State.make zero lists) with
      | none => return some []
      | some st => return (← loop zero recv lists fuel (st.send zero recv)).map State.sent) := by
    intro fuel
    rw [run, hfirst]
    rfl
  have hfill := fill_eq (List.nil_append lists) rfl hmade List.not_mem_nil rfl Nat.zero_lt_one
  rw [List.length_nil] at hfill
  rcases hfill with ⟨hempty, hfill⟩ | ⟨hfull, st, hfill, hshows, hsent, hcomb⟩
  · refine ⟨[], fun fuel _ => by rw [hrun, hfill]; rfl, List.nodup_nil, List.not_mem_nil, ?_⟩
    rw [product_eq hnone, tuples_eq_nil hempty]
    rfl
  · have hnothing : st.sent = [] := hsent
    have hinside : Inside (lists.map (·, 0)) := by
      intro x hx
      obtain ⟨l, hl, rfl⟩ := List.mem_map.mp hx
      exact List.length_pos_of_ne_nil fun hnil => hfull (hnil ▸ hl)
    have hapart : Apart st := by constructor <;> simp [hnothing]
    obtain ⟨hshows, hapart, hclone⟩ : Shows (st.send zero recv) _ ∧ _ ∧ _ := hshows.send hapart
    have hlists : (lists.map (·, 0)).map Prod.fst = lists := by simp [Function.comp_def]
    obtain ⟨last, hlast, hends, hzero, hout⟩ := loop_eq hlists hinside hshows hapart rfl
    rw [send_eq] at hzero
    have hzero : last.combination = 0 := hzero.trans hcomb
    refine ⟨last.sent, fun fuel hfuel => ?_, hends.nodup, hzero ▸ hends.combination, ?_⟩
    · rw [hrun, hfill, ok_bind]
      show (loop zero recv lists fuel (st.send zero recv) >>= _) = _
      rw [hlast fuel (by rwa [remaining_start, length_tuples])]
      rfl
    · rw [hout, hclone, hnothing, product_eq hnone, ← remaining_start, remaining_step hinside]
      rfl

end Refinement

/-- **`Product` is the lexicographic product**, for any family of lists and any receiver:
it ends, having sent the values at each tuple of positions, in the order of the
positions, each in an array that neither another clone nor `combination` (array 0) has. -/
theorem product_lexicographic {α : Type} (zero : α) (recv : Receiver α) (lists : List (List α)) :
    ∃ out, (∃ enough, ∀ fuel ≥ enough, run zero recv lists fuel = .ok (some out)) ∧
      (out.map Prod.fst).Nodup ∧ 0 ∉ out.map Prod.fst ∧
      (lists = [] ∨ [] ∈ lists → out = []) ∧
      (lists ≠ [] → ∃ ps : List (List Nat),
        (∀ p, p ∈ ps ↔ List.Forall₂ (fun i l => i < l.length) p lists) ∧
        ps.Pairwise (List.Lex (· < ·)) ∧ ps.Nodup ∧
        out.map (fun clone => clone.2.map some) = ps.map (valuesAt lists)) := by
  obtain ⟨out, hrun, hnodup, hcomb, hout⟩ := run_eq zero recv lists
  refine ⟨out, ⟨_, hrun⟩, hnodup, hcomb, ?_, fun h => ⟨positions lists, fun _ => mem_positions,
    pairwise_positions lists, ?_, ?_⟩⟩
  · intro h
    have hproduct : product lists = [] := by
      rcases h with rfl | h
      · rfl
      · rw [product_eq (List.ne_nil_of_mem h), tuples_eq_nil h]
    rwa [hproduct, List.map_eq_nil_iff] at hout
  · refine (pairwise_positions lists).imp ?_
    intro p q hlex he
    subst he
    exact List.lex_irrefl Nat.lt_irrefl p hlex
  · rw [← tuples_eq_positions, ← product_eq h, ← hout, List.map_map]
    rfl

end Ldap2pg.Lists.Odometer
