import Mathlib

/-! # Depth-first enumeration of a digraph

`visit` lists the successors of a node, then the node, skipping what is listed
already. On an acyclic graph it ends and lists every node once, after its
successors, and two graphs with the same edges are listed alike. Fuel bounds the
depth of the recursion: the nodes of the recursion stack are distinct, so the number
of nodes is enough. -/
namespace Ldap2pg.Lib.Digraph
open Relation

variable {fuel : Nat}

variable {α : Type} {succ : α → List α}

def Edge (succ : α → List α) (a b : α) : Prop := b ∈ succ a

def Acyclic (succ : α → List α) : Prop := ∀ a, ¬ TransGen (Edge succ) a a

theorem acyclic_of_rank (rank : α → Nat) (h : ∀ a, ∀ b ∈ succ a, rank b < rank a) :
    Acyclic succ := by
  have hlt : ∀ a b, TransGen (Edge succ) a b → rank b < rank a := by
    intro a b hab
    induction hab with
    | single hb => exact h a _ hb
    | tail _ hd ih => exact (h _ _ hd).trans ih
  exact fun a ha => (hlt a a ha).false

/-- Every node is listed once, after its successors. -/
structure Topological (succ : α → List α) (out : List α) : Prop where
  nodup : out.Nodup
  closed : ∀ l₁ a l₂, out = l₁ ++ a :: l₂ → ∀ b ∈ succ a, b ∈ l₁

theorem Topological.nil : Topological succ [] :=
  ⟨List.nodup_nil, fun l₁ a l₂ h => by simp at h⟩

theorem Topological.snoc {out : List α} {x : α} (h : Topological succ out) (hx : x ∉ out)
    (hs : ∀ b ∈ succ x, b ∈ out) : Topological succ (out ++ [x]) := by
  refine ⟨List.nodup_append.mpr ⟨h.nodup, by simp, ?_⟩, ?_⟩
  · intro a ha b hb he
    rw [List.mem_singleton.mp hb] at he
    exact hx (he ▸ ha)
  · intro l₁ a l₂ he b hb
    rcases List.eq_nil_or_concat l₂ with rfl | ⟨l, z, rfl⟩
    · obtain ⟨h₁, h₂⟩ := List.append_inj' he rfl
      obtain rfl : x = a := by simpa using h₂
      exact h₁ ▸ hs b hb
    · have he' : out ++ [x] = (l₁ ++ a :: l) ++ [z] := by simpa using he
      obtain ⟨h₁, _⟩ := List.append_inj' he' rfl
      exact h.closed l₁ a l h₁ b hb

/-- What one more visit does to the list: it only grows, by nodes reachable
from the visited ones, and stays topological. -/
structure Extends (succ : α → List α) (xs out out' : List α) : Prop where
  grows : out <+: out'
  topological : Topological succ out'
  covers : ∀ x ∈ xs, x ∈ out'
  reached : ∀ y ∈ out', y ∈ out ∨ ∃ x ∈ xs, ReflTransGen (Edge succ) x y

theorem Extends.cons {x : α} {xs out out₁ out₂ : List α} (h₁ : Extends succ [x] out out₁)
    (h₂ : Extends succ xs out₁ out₂) : Extends succ (x :: xs) out out₂ := by
  refine ⟨h₁.grows.trans h₂.grows, h₂.topological, ?_, ?_⟩
  · intro y hy
    rcases List.mem_cons.mp hy with rfl | hy
    · exact h₂.grows.subset (h₁.covers y (by simp))
    · exact h₂.covers y hy
  · intro y hy
    rcases h₂.reached y hy with hy | ⟨z, hz, hr⟩
    · rcases h₁.reached y hy with hy | ⟨z, hz, hr⟩
      · exact Or.inl hy
      · exact Or.inr ⟨z, by simp [List.mem_singleton.mp hz], hr⟩
    · exact Or.inr ⟨z, by simp [hz], hr⟩

variable [DecidableEq α]

/-- Appends to `out` what is reachable from `x` and not listed yet. -/
def visit (succ : α → List α) : Nat → α → List α → Option (List α)
  | 0, _, _ => none
  | fuel + 1, x, out =>
    if x ∈ out then some out
    else ((succ x).foldlM (fun out y => visit succ fuel y out) out).map (· ++ [x])

/-- Visits every node of a list. -/
def visitAll (succ : α → List α) (fuel : Nat) (xs out : List α) : Option (List α) :=
  xs.foldlM (fun out x => visit succ fuel x out) out

/-- A list of visits that each succeed is one that succeeds. -/
theorem visitAll_of_visit {xs : List α}
    (h : ∀ x ∈ xs, ∀ out, Topological succ out → ∃ out', visit succ fuel x out = some out' ∧
    Extends succ [x] out out') :
    ∀ out, Topological succ out →
      ∃ out', visitAll succ fuel xs out = some out' ∧ Extends succ xs out out' := by
  induction xs with
  | nil =>
    intro out ht
    exact ⟨out, rfl, List.prefix_refl _, ht, by simp, fun y hy => Or.inl hy⟩
  | cons x xs ih =>
    intro out ht
    obtain ⟨out₁, hv, he⟩ := h x (by simp) out ht
    obtain ⟨out₂, hv₂, he₂⟩ := ih (fun y hy => h y (by simp [hy])) out₁ he.topological
    refine ⟨out₂, ?_, he.cons he₂⟩
    simp only [visitAll, List.foldlM_cons, hv]
    exact hv₂

/-- The recursion of `visit` under a stack of nodes that all lead to `x`. -/
theorem visit_stack (ha : Acyclic succ) {nodes : List α}
    (hclosed : ∀ a ∈ nodes, ∀ b ∈ succ a, b ∈ nodes) :
    ∀ (fuel : Nat) (stack : List α) (x : α), nodes.length ≤ fuel + stack.length →
      stack.Nodup → (∀ y ∈ stack, y ∈ nodes ∧ TransGen (Edge succ) y x) → x ∈ nodes →
      ∀ out, Topological succ out →
        ∃ out', visit succ fuel x out = some out' ∧ Extends succ [x] out out' := by
  intro fuel
  induction fuel with
  | zero =>
    intro stack x hlen hnd hst hx out _
    have hxs : x ∉ stack := fun hm => ha x (hst x hm).2
    have hsub : (x :: stack) ⊆ nodes := by
      intro y hy
      rcases List.mem_cons.mp hy with rfl | hy
      · exact hx
      · exact (hst y hy).1
    have := (List.subperm_of_subset (List.nodup_cons.mpr ⟨hxs, hnd⟩) hsub).length_le
    simp at this; omega
  | succ fuel ih =>
    intro stack x hlen hnd hst hx out ht
    by_cases hin : x ∈ out
    · refine ⟨out, by simp [visit, hin], List.prefix_refl _, ht, ?_, fun y hy => Or.inl hy⟩
      intro y hy
      rwa [List.mem_singleton.mp hy]
    · have hxs : x ∉ stack := fun hm => ha x (hst x hm).2
      have hstep : ∀ y ∈ succ x, ∀ out, Topological succ out →
          ∃ out', visit succ fuel y out = some out' ∧ Extends succ [y] out out' := by
        intro y hy
        refine ih (x :: stack) y (by simp; omega) (List.nodup_cons.mpr ⟨hxs, hnd⟩) ?_
          (hclosed x hx y hy)
        intro z hz
        rcases List.mem_cons.mp hz with rfl | hz
        · exact ⟨hx, TransGen.single hy⟩
        · exact ⟨(hst z hz).1, (hst z hz).2.tail hy⟩
      obtain ⟨out₁, hv, he⟩ := visitAll_of_visit hstep out ht
      have hx₁ : x ∉ out₁ := by
        intro hm
        rcases he.reached x hm with hm | ⟨y, hy, hr⟩
        · exact hin hm
        · exact ha x (TransGen.head' hy hr)
      refine ⟨out₁ ++ [x], ?_, he.grows.trans (List.prefix_append _ _),
        he.topological.snoc hx₁ he.covers, ?_, ?_⟩
      · have hv' : (succ x).foldlM (fun out y => visit succ fuel y out) out = some out₁ := hv
        simp [visit, hin, hv']
      · intro y hy; simp [List.mem_singleton.mp hy]
      · intro y hy
        rcases List.mem_append.mp hy with hy | hy
        · rcases he.reached y hy with hy | ⟨z, hz, hr⟩
          · exact Or.inl hy
          · exact Or.inr ⟨x, by simp, ReflTransGen.head hz hr⟩
        · exact Or.inr ⟨x, by simp, by rw [List.mem_singleton.mp hy]⟩

/-- **Depth-first enumeration is topological.** On an acyclic graph whose nodes
are `nodes`, visiting any list of nodes ends and lists them with all they reach,
each once and after its successors. -/
theorem visitAll_spec (ha : Acyclic succ) {nodes xs : List α}
    (hclosed : ∀ a ∈ nodes, ∀ b ∈ succ a, b ∈ nodes) (hxs : ∀ x ∈ xs, x ∈ nodes)
    (hfuel : nodes.length ≤ fuel) :
    ∃ out, visitAll succ fuel xs [] = some out ∧ Extends succ xs [] out :=
  visitAll_of_visit (fun x hx => visit_stack ha hclosed fuel [] x (by simpa using hfuel)
    List.nodup_nil (by simp) (hxs x hx)) [] Topological.nil

/-! ## A visit that ends

On a cycle the recursion never comes back: a visit that ends, whatever its fuel, has
listed what it met in topological order. -/

omit [DecidableEq α] in
/-- A successor is listed before, and so is all that it leads to. -/
theorem Topological.before {out l₁ l₂ : List α} {a b : α} (h : Topological succ out)
    (hout : out = l₁ ++ a :: l₂) (hab : TransGen (Edge succ) a b) : b ∈ l₁ := by
  induction hab with
  | single hb => exact h.closed l₁ a l₂ hout _ hb
  | @tail c d _ hd ih =>
    obtain ⟨m₁, m₂, rfl⟩ := List.append_of_mem ih
    have hin : d ∈ m₁ := h.closed m₁ c (m₂ ++ a :: l₂) (by rw [hout]; simp) d hd
    exact List.mem_append_left _ hin

omit [DecidableEq α] in
theorem Topological.acyclic_at {out : List α} (h : Topological succ out) {a : α} (ha : a ∈ out) :
    ¬ TransGen (Edge succ) a a := by
  intro hc
  obtain ⟨l₁, l₂, rfl⟩ := List.append_of_mem ha
  have hin : a ∈ l₁ := h.before rfl hc
  exact (List.nodup_append.mp h.nodup).2.2 a hin a List.mem_cons_self rfl

theorem extends_of_visits {xs : List α}
    (h : ∀ x ∈ xs, ∀ {out out' : List α}, Topological succ out → visit succ fuel x out = some out'
    → Extends succ [x] out out') :
    ∀ {out out' : List α}, Topological succ out → visitAll succ fuel xs out = some out' →
      Extends succ xs out out' := by
  induction xs with
  | nil =>
    intro out out' ht hv
    cases hv
    exact ⟨List.prefix_refl _, ht, by simp, fun y hy => .inl hy⟩
  | cons x xs ih =>
    intro out out' ht hv
    rw [visitAll, List.foldlM_cons] at hv
    obtain ⟨out₁, hx, hv⟩ := Option.bind_eq_some_iff.mp hv
    have he := h x List.mem_cons_self ht hx
    exact he.cons (ih (fun y hy => h y (List.mem_cons_of_mem x hy)) he.topological hv)

theorem extends_of_visit : ∀ {x : α} {out out' : List α}, Topological succ out →
    visit succ fuel x out = some out' → Extends succ [x] out out' := by
  induction fuel with
  | zero => intro x out out' _ h; cases h
  | succ fuel ih =>
    intro x out out' ht h
    by_cases hin : x ∈ out
    · rw [visit, if_pos hin] at h
      cases h
      exact ⟨List.prefix_refl _, ht, by simpa using hin, fun y hy => .inl hy⟩
    · rw [visit, if_neg hin] at h
      obtain ⟨out₁, hv, rfl⟩ := Option.map_eq_some_iff.mp h
      have he : Extends succ (succ x) out out₁ := extends_of_visits (fun y _ => ih) ht hv
      -- a second visit of `x` would have listed it after itself
      have hx : x ∉ out₁ := by
        intro hm
        rcases he.reached x hm with hm | ⟨y, hy, hr⟩
        · exact hin hm
        · exact he.topological.acyclic_at hm (TransGen.head' hy hr)
      refine ⟨he.grows.trans (List.prefix_append _ _), he.topological.snoc hx he.covers, ?_, ?_⟩
      · intro y hy
        simp [List.mem_singleton.mp hy]
      · intro y hy
        rcases List.mem_append.mp hy with hy | hy
        · rcases he.reached y hy with hy | ⟨z, hz, hr⟩
          · exact .inl hy
          · exact .inr ⟨x, by simp, .head hz hr⟩
        · exact .inr ⟨x, by simp, by rw [List.mem_singleton.mp hy]⟩

/-- If visiting the nodes ends, none of them leads to itself. -/
theorem acyclic_of_visitAll {xs out : List α} (h : visitAll succ fuel xs [] = some out) :
    ∀ x ∈ xs, ¬ TransGen (Edge succ) x x := by
  have he : Extends succ xs [] out := extends_of_visits (fun _ _ => extends_of_visit) .nil h
  exact fun x hx => he.topological.acyclic_at (he.covers x hx)

/-! ## Gathering along an enumeration

A table has a list for each node. One step at `a` adds the lists of the successors
of `a` to that of `a`. After a step at each node of a topological enumeration, a node
has what is listed at the nodes it reaches. -/

section Gather
variable {β σ : Type}

omit [DecidableEq α] in
theorem Topological.of_snoc {l : List α} {a : α} (h : Topological succ (l ++ [a])) :
    Topological succ l ∧ a ∉ l ∧ ∀ b ∈ succ a, b ∈ l := by
  refine ⟨⟨(List.nodup_append.mp h.nodup).1, fun l₁ c l₂ he => ?_⟩, fun hin => ?_,
    h.closed l a [] rfl⟩
  · exact h.closed l₁ c (l₂ ++ [a]) (by rw [he]; simp)
  · exact (List.nodup_append.mp h.nodup).2.2 a hin a (List.mem_singleton_self a) rfl

omit [DecidableEq α] in
theorem mem_gather (get : σ → α → List β) (step : σ → α → σ)
    (hother : ∀ t a c, c ≠ a → get (step t a) c = get t c)
    (hown : ∀ t a, a ∉ succ a → ∀ b, b ∈ get (step t a) a ↔
      b ∈ get t a ∨ ∃ c ∈ succ a, b ∈ get t c) (t : σ) {order : List α} :
    Topological succ order →
      (∀ a ∉ order, get (order.foldl step t) a = get t a) ∧
      ∀ a ∈ order, ∀ b, b ∈ get (order.foldl step t) a ↔
        ∃ c, ReflTransGen (Edge succ) a c ∧ b ∈ get t c := by
  induction order using List.reverseRecOn with
  | nil => exact fun _ => ⟨fun _ _ => rfl, fun a ha => absurd ha List.not_mem_nil⟩
  | append_singleton l a ih =>
    intro h
    obtain ⟨hl, hnot, hsucc⟩ := h.of_snoc
    obtain ⟨hout, hin⟩ := ih hl
    rw [List.foldl_append]
    refine ⟨fun c hc => ?_, fun c hc b => ?_⟩
    · rw [List.mem_append, List.mem_singleton, not_or] at hc
      exact (hother _ a c hc.2).trans (hout c hc.1)
    · by_cases hca : c = a
      · subst hca
        have hloop : c ∉ succ c := fun h => hnot (hsucc c h)
        -- a node that `c` reaches is `c`, or one that a successor of `c` reaches
        show b ∈ get (step (l.foldl step t) c) c ↔ _
        rw [hown _ c hloop, hout c hnot]
        constructor
        · rintro (hb | ⟨d, hd, hb⟩)
          · exact ⟨c, .refl, hb⟩
          · obtain ⟨e, hde, hb⟩ := (hin d (hsucc d hd) b).mp hb
            exact ⟨e, .head hd hde, hb⟩
        · intro ⟨e, hce, hb⟩
          rcases hce.cases_head with rfl | ⟨d, hd, hde⟩
          · exact .inl hb
          · exact .inr ⟨d, hd, (hin d (hsucc d hd) b).mpr ⟨e, hde, hb⟩⟩
      · have hcl : c ∈ l := (List.mem_append.mp hc).resolve_right (by simpa using hca)
        show b ∈ get (step (l.foldl step t) a) c ↔ _
        rw [hother _ a c hca]
        exact hin c hcl b

end Gather

/-! ## The order of the successors

Successors that are sorted may be repeated: a node that is listed is skipped. So two
graphs with the same edges are enumerated alike. -/

/-- A node that was visited is skipped. -/
theorem visit_again {x : α} {out out' : List α} (h : visit succ fuel x out = some out') :
    visit succ fuel x out' = some out' := by
  cases fuel with
  | zero => cases h
  | succ fuel =>
    have hlisted : x ∈ out' := by
      rw [visit] at h
      split at h
      · next hin => exact Option.some.inj h ▸ hin
      · obtain ⟨out₁, _, rfl⟩ := Option.map_eq_some_iff.mp h
        simp
    rw [visit, if_pos hlisted]

section Sorted
variable [PartialOrder α]

theorem foldlM_dedup {β : Type} (f : β → α → Option β)
    (hf : ∀ b b' a, f b a = some b' → f b' a = some b') {l : List α} (b : β)
    (hl : l.Pairwise (· ≤ ·)) : l.foldlM f b = l.dedup.foldlM f b := by
  induction l generalizing b with
  | nil => rfl
  | cons a l ih =>
    obtain ⟨ha, hl⟩ := List.pairwise_cons.mp hl
    by_cases hin : a ∈ l
    · -- the copy is next
      obtain ⟨l, rfl⟩ : ∃ l', l = a :: l' := by
        cases l with
        | nil => cases hin
        | cons c l =>
          have hca : c ≤ a := by
            rcases List.mem_cons.mp hin with rfl | hin
            · exact le_refl _
            · exact (List.pairwise_cons.mp hl).1 a hin
          exact ⟨l, by rw [le_antisymm (ha c List.mem_cons_self) hca]⟩
      rw [List.dedup_cons_of_mem hin, ← ih b hl, List.foldlM_cons, List.foldlM_cons]
      cases hb : f b a with
      | none => rfl
      | some b' =>
        show f b' a >>= _ = _
        rw [hf b b' a hb]
    · rw [List.dedup_cons_of_notMem hin, List.foldlM_cons, List.foldlM_cons]
      exact congrArg (f b a >>= ·) (funext fun b' => ih b' hl)

theorem dedup_eq_of_sorted {l l' : List α} (hl : l.Pairwise (· ≤ ·)) (hl' : l'.Pairwise (· ≤ ·))
    (h : ∀ a, a ∈ l ↔ a ∈ l') : l.dedup = l'.dedup := by
  have hperm : l.dedup.Perm l'.dedup :=
    (List.perm_ext_iff_of_nodup l.nodup_dedup l'.nodup_dedup).mpr fun a => by simp [h a]
  exact hperm.eq_of_pairwise (fun a b _ _ => le_antisymm) (hl.sublist l.dedup_sublist)
    (hl'.sublist l'.dedup_sublist)

/-- **Graphs with the same edges are visited alike**, if their successors are sorted. -/
theorem visit_congr {succ' : α → List α} (hs : ∀ a, (succ a).Pairwise (· ≤ ·))
    (hs' : ∀ a, (succ' a).Pairwise (· ≤ ·)) (h : ∀ a b, b ∈ succ a ↔ b ∈ succ' a) :
    ∀ (fuel : Nat) (x : α) (out : List α), visit succ fuel x out = visit succ' fuel x out := by
  intro fuel
  induction fuel with
  | zero => intro x out; rfl
  | succ fuel ih =>
    intro x out
    have hlist : (succ x).foldlM (fun out y => visit succ fuel y out) out =
        (succ' x).foldlM (fun out y => visit succ' fuel y out) out := by
      have hsame : (fun out y => visit succ fuel y out) = fun out y => visit succ' fuel y out :=
        funext fun out => funext fun y => ih y out
      have hdedup := fun l => foldlM_dedup (l := l) (fun out y => visit succ' fuel y out)
        (fun _ _ _ hv => visit_again hv) out
      rw [hsame, hdedup _ (hs x), hdedup _ (hs' x), dedup_eq_of_sorted (hs x) (hs' x) (h x)]
    rw [visit, visit, hlist]

theorem visitAll_congr {succ' : α → List α} (hs : ∀ a, (succ a).Pairwise (· ≤ ·))
    (hs' : ∀ a, (succ' a).Pairwise (· ≤ ·)) (h : ∀ a b, b ∈ succ a ↔ b ∈ succ' a)
    (fuel : Nat) (xs out : List α) : visitAll succ fuel xs out = visitAll succ' fuel xs out :=
  congrArg (fun f => xs.foldlM f out)
    (funext fun out => funext fun x => visit_congr hs hs' h fuel x out)

end Sorted

omit [DecidableEq α] in
theorem foldlM_mono {β : Type} {f f' : β → α → Option β}
    (h : ∀ {b b' : β} {a : α}, f b a = some b' → f' b a = some b') {l : List α} {b b' : β}
    (hl : l.foldlM f b = some b') : l.foldlM f' b = some b' := by
  induction l generalizing b with
  | nil => exact hl
  | cons a l ih =>
    rw [List.foldlM_cons] at hl ⊢
    obtain ⟨b₁, hb, hl⟩ := Option.bind_eq_some_iff.mp hl
    exact Option.bind_eq_some_iff.mpr ⟨b₁, h hb, ih hl⟩

/-- More fuel gives the same enumeration. -/
theorem visit_mono {fuel' : Nat} (hfuel : fuel ≤ fuel') : ∀ {x : α} {out out' : List α},
    visit succ fuel x out = some out' → visit succ fuel' x out = some out' := by
  induction fuel generalizing fuel' with
  | zero => intro x out out' h; cases h
  | succ fuel ih =>
    intro x out out' h
    obtain ⟨fuel', rfl⟩ : ∃ n, fuel' = n + 1 := ⟨fuel' - 1, by omega⟩
    rw [visit] at h ⊢
    split at h
    · next hin => rw [if_pos hin, h]
    · next hin =>
      obtain ⟨out₁, hout, rfl⟩ := Option.map_eq_some_iff.mp h
      rw [if_neg hin, foldlM_mono (fun hv => ih (by omega) hv) hout]
      rfl

theorem visitAll_mono {fuel' : Nat} (hfuel : fuel ≤ fuel') {xs out out' : List α}
    (h : visitAll succ fuel xs out = some out') : visitAll succ fuel' xs out = some out' :=
  foldlM_mono (visit_mono hfuel) h

/-! ## Searches that return what they add

A search in a program often returns the nodes it adds, and keeps the ones that are
listed in its state. -/

section Follows
variable {σ β : Type}

/-- Such a search follows a visit that starts with the nodes `before`: both end or
neither does, and the search returns what the visit adds. -/
inductive Follows (I : σ → Prop) (listed : σ → List α) (before : List α) :
    Option (List α) → Option (List α × σ) → Prop
  | stuck : Follows I listed before none none
  | ends (order : List α) (s : σ) (hlisted : listed s = before ++ order) (hs : I s) :
      Follows I listed before (some (before ++ order)) (some (order, s))

variable {I : σ → Prop} {listed : σ → List α} {before : List α}

omit [DecidableEq α] in
/-- Nothing is added. -/
theorem Follows.skip {s : σ} (hs : I s) :
    Follows I listed (listed s) (some (listed s)) (some ([], s)) := by
  have h : Follows I listed (listed s) (some (listed s ++ [])) (some ([], s)) :=
    .ends [] s (by simp) hs
  rwa [List.append_nil] at h

omit [DecidableEq α] in
/-- One node more. -/
theorem Follows.snoc {out : Option (List α)} {result : Option (List α × σ)}
    (h : Follows I listed before out result) (x : α) (add : σ → σ)
    (hadd : ∀ s, I s → I (add s) ∧ listed (add s) = listed s ++ [x]) :
    Follows I listed before (out.map (· ++ [x])) (do
      let r ← result
      return (r.1 ++ [x], add r.2)) := by
  cases h with
  | stuck => exact .stuck
  | ends order s hlisted hs =>
    obtain ⟨hadded, hlast⟩ := hadd s hs
    have hlists : listed (add s) = before ++ (order ++ [x]) := by
      rw [hlast, hlisted, List.append_assoc]
    have h := Follows.ends (order ++ [x]) (add s) hlists hadded
    rw [← List.append_assoc] at h
    exact h

omit [DecidableEq α] in
/-- A loop of such searches follows the loop of the visits. -/
theorem Follows.foldlM (search : List α → α → Option (List α))
    (step : β → σ → Option (List α × σ)) (key : β → α) {l : List β}
    (hstep : ∀ b ∈ l, ∀ s, I s → Follows I listed (listed s) (search (listed s) (key b)) (step b s))
    (s : σ) (hs : I s) :
    Follows I listed (listed s) ((l.map key).foldlM search (listed s)) (l.foldlM (fun acc b => do
      let r ← step b acc.2
      return (acc.1 ++ r.1, r.2)) (([] : List α), s)) := by
  -- the loop, from what it has added since `before`
  have hloop : ∀ (before order : List α) (s : σ), listed s = before ++ order → I s →
      Follows I listed before ((l.map key).foldlM search (before ++ order))
        (l.foldlM (fun acc b => do
          let r ← step b acc.2
          return (acc.1 ++ r.1, r.2)) (order, s)) := by
    induction l with
    | nil => intro before order s hlisted hs; exact .ends order s hlisted hs
    | cons b l ih =>
      intro before order s hlisted hs
      have hb := hstep b List.mem_cons_self s hs
      rw [hlisted] at hb
      rw [List.map_cons, List.foldlM_cons, List.foldlM_cons]
      generalize search (before ++ order) (key b) = out, step b s = result at hb ⊢
      cases hb with
      | stuck => exact .stuck
      | ends more s' hmore hs' =>
        have h := ih (fun c hc => hstep c (List.mem_cons_of_mem b hc)) before (order ++ more) s'
          (by rw [hmore, List.append_assoc]) hs'
        rw [← List.append_assoc] at h
        exact h
  have h := hloop (listed s) [] s (by simp) hs
  rwa [List.append_nil] at h

omit [DecidableEq α] in
/-- From nothing, the search returns the visit. -/
theorem Follows.map_fst {out : Option (List α)} {result : Option (List α × σ)}
    (h : Follows I listed [] out result) : result.map Prod.fst = out := by
  cases h with
  | stuck => rfl
  | ends order s hlisted hs => rfl

end Follows

end Ldap2pg.Lib.Digraph
