import Mathlib

/-! # Programs that emit and may end early

`Proc` is a program seen from outside: what it emitted before it ended, and how
it ended. `Does` is its logic: every value emitted satisfies `P`, and a value
returned satisfies `Q`. -/
namespace Ldap2pg.Lib

variable {ε' : Type}

structure Proc (ω ε α : Type) where
  emitted : List ω
  result : Except ε α

namespace Proc
variable {ω ε α β σ : Type}

instance : Monad (Proc ω ε) where
  pure a := ⟨[], .ok a⟩
  bind x f := match x.result with
    | .error e => ⟨x.emitted, .error e⟩
    | .ok a => ⟨x.emitted ++ (f a).emitted, (f a).result⟩

def emit (l : List ω) : Proc ω ε Unit := ⟨l, .ok ()⟩

/-- A computation that emits nothing, its errors under `wrap`. -/
def lift {ε' : Type} (wrap : ε' → ε) (r : Except ε' α) : Proc ω ε α := ⟨[], r.mapError wrap⟩

/-- The program ends here if there is an error. -/
def guard (error : Option ε) : Proc ω ε Unit := ⟨[], error.elim (.ok ()) .error⟩

theorem mem_bind {x : Proc ω ε α} {f : α → Proc ω ε β} {w : ω} :
    w ∈ (x >>= f).emitted ↔ w ∈ x.emitted ∨ ∃ a, x.result = .ok a ∧ w ∈ (f a).emitted := by
  simp only [bind]
  cases x.result with
  | error e => simp
  | ok a => simp

theorem result_bind {x : Proc ω ε α} {f : α → Proc ω ε β} {b : β} :
    (x >>= f).result = .ok b ↔ ∃ a, x.result = .ok a ∧ (f a).result = .ok b := by
  simp only [bind]
  cases x.result with
  | error e => simp
  | ok a => simp

theorem lift_result {wrap : ε' → ε} {r : Except ε' α} {a : α} :
    (lift wrap r : Proc ω ε α).result = .ok a ↔ r = .ok a := by
  cases r <;> simp [lift, Except.mapError]

theorem lift_ok_bind {wrap : ε' → ε} {a : α} {f : α → Proc ω ε β} :
    (lift wrap (.ok a) >>= f) = f a := rfl

theorem guard_none_bind {f : Unit → Proc ω ε β} : (guard none >>= f) = f () := rfl

/-- A program emits nothing before it is past a computation that emits nothing. -/
theorem mem_lift_bind {wrap : ε' → ε} {r : Except ε' α} {f : α → Proc ω ε β} {w : ω} :
    w ∈ (lift wrap r >>= f).emitted ↔ ∃ a, r = .ok a ∧ w ∈ (f a).emitted := by
  rw [mem_bind]
  simp only [lift_result]
  exact or_iff_right List.not_mem_nil

theorem mem_guard_bind {error : Option ε} {f : Unit → Proc ω ε β} {w : ω} :
    w ∈ (guard error >>= f).emitted ↔ error = none ∧ w ∈ (f ()).emitted := by
  cases error <;> simp [mem_bind, guard, Unique.exists_iff]

theorem emitted_bind {x : Proc ω ε α} {f : α → Proc ω ε β} {a : α} (h : x.result = .ok a) :
    (x >>= f).emitted = x.emitted ++ (f a).emitted := by
  simp only [bind, h]

/-- A loop that comes to its end: what its turns emit, one after the other. -/
inductive Loop (f : σ → α → Proc ω ε σ) : σ → List α → List ω → σ → Prop
  | nil (s : σ) : Loop f s [] [] s
  | cons {s s₁ s₂ : σ} {a : α} {l : List α} {out : List ω} (h : (f s a).result = .ok s₁)
      (rest : Loop f s₁ l out s₂) : Loop f s (a :: l) ((f s a).emitted ++ out) s₂

theorem Loop.of_foldlM {f : σ → α → Proc ω ε σ} {l : List α} :
    ∀ {s s' : σ}, (l.foldlM f s).result = .ok s' → Loop f s l (l.foldlM f s).emitted s' := by
  induction l with
  | nil =>
    intro s s' h
    cases h
    exact .nil s
  | cons a l ih =>
    intro s s' h
    rw [List.foldlM_cons] at h ⊢
    obtain ⟨s₁, hs₁, h⟩ := result_bind.mp h
    rw [emitted_bind hs₁]
    exact .cons hs₁ (ih h)

/-- What the program emits answers to the expected values in turn, some of them left
out, and if it ends early it is for an error in `P`. -/
structure Within {κ : Type} (R : ω → κ → Prop) (P : ε → Prop) (expected : List κ)
    (x : Proc ω ε α) : Prop where
  emits : List.SublistForall₂ R x.emitted expected
  ends : ∀ e, x.result = .error e → P e

section Within
variable {κ : Type} {R : ω → κ → Prop} {P : ε → Prop} {expected expected' : List κ}

theorem Within.pure {a : α} : Within R P [] (Pure.pure a : Proc ω ε α) := ⟨.nil, nofun⟩

theorem Within.weaken {x : Proc ω ε α} (hx : Within R P expected x)
    (h : expected.Sublist expected') : Within R P expected' x := by
  obtain ⟨l, hl, hsub⟩ := List.sublistForall₂_iff.mp hx.emits
  exact ⟨List.sublistForall₂_iff.mpr ⟨l, hl, hsub.trans h⟩, hx.ends⟩

theorem Within.bind {x : Proc ω ε α} {f : α → Proc ω ε β} (hx : Within R P expected x)
    (hf : ∀ a, x.result = .ok a → Within R P expected' (f a)) :
    Within R P (expected ++ expected') (x >>= f) := by
  cases hr : x.result with
  | error e =>
    have hbind : x >>= f = ⟨x.emitted, .error e⟩ := by simp only [Bind.bind, hr]
    rw [hbind]
    refine .weaken ⟨hx.emits, fun e' he' => ?_⟩ (List.sublist_append_left expected expected')
    cases he'
    exact hx.ends e hr
  | ok a =>
    have hbind : x >>= f = ⟨x.emitted ++ (f a).emitted, (f a).result⟩ := by
      simp only [Bind.bind, hr]
    obtain ⟨l, hl, hsub⟩ := List.sublistForall₂_iff.mp hx.emits
    obtain ⟨l', hl', hsub'⟩ := List.sublistForall₂_iff.mp (hf a hr).emits
    rw [hbind]
    exact ⟨List.sublistForall₂_iff.mpr ⟨l ++ l', List.rel_append hl hl', hsub.append hsub'⟩,
      (hf a hr).ends⟩

/-- The rule for a first part that emits nothing. -/
theorem Within.silent {x : Proc ω ε α} {f : α → Proc ω ε β} (hx : Within R P [] x)
    (hf : ∀ a, x.result = .ok a → Within R P expected (f a)) : Within R P expected (x >>= f) :=
  hx.bind hf

theorem Within.lift {wrap : ε' → ε} {r : Except ε' α} (h : ∀ e, r = .error e → P (wrap e)) :
    Within R P [] (Proc.lift wrap r : Proc ω ε α) := by
  refine ⟨.nil, fun e he => ?_⟩
  cases r with
  | error e' => cases he; exact h e' rfl
  | ok a => cases he

theorem Within.emit {w : ω} {k : κ} (h : R w k) :
    Within R P [k] (Proc.emit [w] : Proc ω ε Unit) := ⟨.cons h .nil, nofun⟩

theorem Within.foldlM {I : σ → Prop} {expect : α → List κ} {f : σ → α → Proc ω ε σ} {l : List α}
    (hturn : ∀ s, ∀ a ∈ l, I s → Within R P (expect a) (f s a) ∧
      ∀ s', (f s a).result = .ok s' → I s') :
    ∀ {s : σ}, I s → Within R P (l.flatMap expect) (l.foldlM f s) := by
  induction l with
  | nil => intro s _; exact .pure
  | cons a l ih =>
    intro s hs
    rw [List.foldlM_cons, List.flatMap_cons]
    obtain ⟨hwithin, hnext⟩ := hturn s a List.mem_cons_self hs
    exact hwithin.bind fun s' hs' =>
      ih (fun s b hb => hturn s b (List.mem_cons_of_mem a hb)) (hnext s' hs')

theorem Within.foldlM_zipIdx {I : σ → Prop} {expect : α → List κ} {f : σ → α × Nat → Proc ω ε σ}
    {l : List α} (hturn : ∀ s, ∀ a ∈ l, ∀ i, I s → Within R P (expect a) (f s (a, i)) ∧
      ∀ s', (f s (a, i)).result = .ok s' → I s') {s : σ} (hs : I s) :
    Within R P (l.flatMap expect) (l.zipIdx.foldlM f s) := by
  have hexpect : l.flatMap expect = l.zipIdx.flatMap fun ai => expect ai.1 := by
    conv_lhs => rw [← List.zipIdx_map_fst 0 l, List.flatMap_map]
  rw [hexpect]
  exact .foldlM (fun s ai hai => hturn s ai.1 (List.fst_mem_of_mem_zipIdx hai) ai.2) hs

end Within

structure Does (P : ω → Prop) (Q : α → Prop) (x : Proc ω ε α) : Prop where
  emits : ∀ w ∈ x.emitted, P w
  returns : ∀ a, x.result = .ok a → Q a

variable {P : ω → Prop}

theorem Does.bind {Q : α → Prop} {R : β → Prop} {x : Proc ω ε α} {f : α → Proc ω ε β}
    (hx : Does P Q x) (hf : ∀ a, Q a → Does P R (f a)) : Does P R (x >>= f) := by
  refine ⟨fun w hw => ?_, fun b hb => ?_⟩
  · rcases mem_bind.mp hw with hw | ⟨a, ha, hw⟩
    · exact hx.emits w hw
    · exact (hf a (hx.returns a ha)).emits w hw
  · obtain ⟨a, ha, hb⟩ := result_bind.mp hb
    exact (hf a (hx.returns a ha)).returns b hb

theorem Does.pure {Q : α → Prop} {a : α} (h : Q a) : Does P Q (Pure.pure a : Proc ω ε α) :=
  ⟨fun _ hw => absurd hw List.not_mem_nil, fun _ hb => by cases hb; exact h⟩

theorem Does.emit {Q : Unit → Prop} {l : List ω} (h : ∀ w ∈ l, P w) (hq : Q ()) :
    Does P Q (Proc.emit l : Proc ω ε Unit) :=
  ⟨h, fun _ _ => hq⟩

theorem Does.lift {Q : α → Prop} {wrap : ε' → ε} {r : Except ε' α} (h : ∀ a, r = .ok a → Q a) :
    Does P Q (Proc.lift wrap r : Proc ω ε α) :=
  ⟨fun _ hw => absurd hw List.not_mem_nil, fun a ha => h a (lift_result.mp ha)⟩

/-- The rule of loops, with an invariant on the variables of the loop. -/
theorem Does.foldlM {I : σ → Prop} {f : σ → α → Proc ω ε σ} {l : List α}
    (hturn : ∀ s, ∀ a ∈ l, I s → Does P I (f s a)) :
    ∀ {s : σ}, I s → Does P I (l.foldlM f s) := by
  induction l with
  | nil => intro s hs; exact .pure hs
  | cons a l ih =>
    intro s hs
    rw [List.foldlM_cons]
    exact (hturn s a List.mem_cons_self hs).bind fun s' hs' =>
      ih (fun s b hb => hturn s b (List.mem_cons_of_mem a hb)) hs'

end Proc

end Ldap2pg.Lib
