import Ldap2pg.Lib.Loops

/-! # Lists of commands

A list of commands runs from left to right. `Triple` is about such lists: from a
state in `I` every command meets `ok` in the state it finds, and the last state
is in `J`. The rule for `emit` is for commands that a loop generates. `Partly` is
a run in which commands fail. -/
namespace Ldap2pg.Lib.Commands

variable {κ ς : Type} {exec : ς → κ → ς} {ok : ς → κ → Prop}

/-- Every command meets `ok` in the state it finds. -/
def Runs (exec : ς → κ → ς) (ok : ς → κ → Prop) : ς → List κ → Prop
  | _, [] => True
  | s, k :: ks => ok s k ∧ Runs exec ok (exec s k) ks

theorem runs_append {s : ς} {l l' : List κ} :
    Runs exec ok s (l ++ l') ↔ Runs exec ok s l ∧ Runs exec ok (l.foldl exec s) l' := by
  induction l generalizing s with
  | nil => exact ⟨fun h => ⟨trivial, h⟩, And.right⟩
  | cons k l ih =>
    show ok s k ∧ Runs exec ok (exec s k) (l ++ l') ↔ _
    rw [ih, ← and_assoc]
    rfl

/-- Commands run exactly when each of them is fine after those before it. -/
theorem runs_iff {s : ς} {l : List κ} :
    Runs exec ok s l ↔
      ∀ before k later, l = before ++ k :: later → ok (before.foldl exec s) k := by
  constructor
  · rintro h before k later rfl
    exact (runs_append.mp h).2.1
  · intro h
    induction l generalizing s with
    | nil => exact trivial
    | cons k l ih =>
      refine ⟨h [] k l rfl, ih fun before k' later hl => ?_⟩
      exact h (k :: before) k' later (congrArg (k :: ·) hl)

def Triple (exec : ς → κ → ς) (ok : ς → κ → Prop) (I : ς → Prop) (l : List κ) (J : ς → Prop) : Prop :=
  ∀ s, I s → Runs exec ok s l ∧ J (l.foldl exec s)

namespace Triple
variable {I J K : ς → Prop} {l l' : List κ}

theorem nil (h : ∀ s, I s → J s) : Triple exec ok I [] J := fun s hs => ⟨trivial, h s hs⟩

theorem append (h : Triple exec ok I l J) (h' : Triple exec ok J l' K) :
    Triple exec ok I (l ++ l') K := by
  intro s hs
  obtain ⟨hruns, hmid⟩ := h s hs
  obtain ⟨hruns', hlast⟩ := h' _ hmid
  exact ⟨runs_append.mpr ⟨hruns, hruns'⟩, by rwa [List.foldl_append]⟩

theorem single {k : κ} (h : ∀ s, I s → ok s k ∧ J (exec s k)) : Triple exec ok I [k] J :=
  fun s hs => ⟨⟨(h s hs).1, trivial⟩, (h s hs).2⟩

theorem weaken (h : Triple exec ok I l J) {I' J' : ς → Prop} (hI : ∀ s, I' s → I s)
    (hJ : ∀ s, J s → J' s) : Triple exec ok I' l J' :=
  fun s hs => ⟨(h s (hI s hs)).1, hJ _ (h s (hI s hs)).2⟩

/-- What every command keeps, the whole list keeps. -/
theorem all (h : ∀ k ∈ l, ∀ s, I s → ok s k ∧ I (exec s k)) : Triple exec ok I l I := by
  induction l with
  | nil => exact nil fun _ hs => hs
  | cons k l ih =>
    exact append (single (h k List.mem_cons_self)) (ih fun k' hk' => h k' (List.mem_cons_of_mem k hk'))

/-- The commands that a loop generates, once `f` has picked those to run. The
invariant is also about the turns taken and the variable of the loop. -/
theorem emit {σ α β : Type} {step : σ → α → List β × σ} {f : List β → List κ} (hnil : f [] = [])
    (happend : ∀ a b, f (a ++ b) = f a ++ f b) {I : List α → σ → ς → Prop} {elems : List α}
    (h : ∀ before a later v, elems = before ++ a :: later →
      Triple exec ok (I before v) (f (step v a).1) (I (before ++ [a]) (step v a).2)) (v : σ) :
    Triple exec ok (I [] v) (f (Lib.emit step v elems).1) (I elems (Lib.emit step v elems).2) := by
  -- the induction is on the turns left, so the turns taken are a parameter
  have hrest : ∀ rest before v, elems = before ++ rest →
      Triple exec ok (I before v) (f (Lib.emit step v rest).1) (I elems (Lib.emit step v rest).2) := by
    intro rest
    induction rest with
    | nil =>
      intro before v hsplit
      rw [List.append_nil] at hsplit
      subst hsplit
      show Triple exec ok (I elems v) (f []) (I elems v)
      rw [hnil]
      exact nil fun _ hs => hs
    | cons a rest ih =>
      intro before v hsplit
      show Triple exec ok (I before v) (f ((step v a).1 ++ (Lib.emit step (step v a).2 rest).1)) _
      rw [happend]
      exact append (h before a rest v hsplit) (ih (before ++ [a]) _ (by simp [hsplit]))
  exact hrest elems [] v rfl

end Triple

/-! ## Commands that may fail -/

/-- Some of the commands take effect, in order. The others fail or are not reached. -/
inductive Partly (exec : ς → κ → Option ς) : ς → List κ → ς → Prop
  | nil {s : ς} : Partly exec s [] s
  | skip {s s' : ς} {k : κ} {l : List κ} (rest : Partly exec s l s') : Partly exec s (k :: l) s'
  | run {s s₁ s' : ς} {k : κ} {l : List κ} (h : exec s k = some s₁) (rest : Partly exec s₁ l s') :
      Partly exec s (k :: l) s'

theorem Partly.none {exec : ς → κ → Option ς} (s : ς) (l : List κ) : Partly exec s l s := by
  induction l with
  | nil => exact .nil
  | cons k l ih => exact .skip ih

/-- The commands stop after some of them. -/
theorem Partly.stopped {exec : ς → κ → Option ς} {s' : ς} (l l' : List κ) : ∀ {s : ς},
    l.foldlM exec s = some s' → Partly exec s (l ++ l') s' := by
  induction l with
  | nil => intro s h; cases h; exact .none _ l'
  | cons k l ih =>
    intro s h
    rw [List.foldlM_cons] at h
    obtain ⟨s₁, hk, hrest⟩ := Option.bind_eq_some_iff.mp h
    exact .run hk (ih hrest)

/-- A preorder that holds across every command holds across the commands that took effect. -/
theorem Partly.rel {exec : ς → κ → Option ς} {R : ς → ς → Prop} (hrefl : ∀ s, R s s)
    (htrans : ∀ {a b c}, R a b → R b c → R a c) {s s' : ς} {l : List κ} (h : Partly exec s l s')
    (hstep : ∀ k ∈ l, ∀ s s', exec s k = some s' → R s s') : R s s' := by
  induction h with
  | nil => exact hrefl _
  | skip _ ih => exact ih fun k hk => hstep k (List.mem_cons_of_mem _ hk)
  | run h _ ih =>
    exact htrans (hstep _ List.mem_cons_self _ _ h) (ih fun k hk => hstep k (List.mem_cons_of_mem _ hk))

end Ldap2pg.Lib.Commands
