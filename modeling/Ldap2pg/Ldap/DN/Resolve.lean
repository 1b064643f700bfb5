import Ldap2pg.Lib.Loops
import Ldap2pg.Ldap.DN.Text

/-! # `ResolveFirstRDN`

The value of an RDN out of a name, and the parser that `Env.parseDN` stands for. The code
takes the first attribute of every RDN without looking at their number; the parser never
gives an RDN without one. -/
namespace Ldap2pg.Ldap.DN
open Lib Lib.Utf8

inductive Fault where
  /-- `rdn.Attributes[0]` on an empty list -/
  | indexOutOfRange
  | unparsed (err : Error)
  /-- no such RDN in DN -/
  | noSuchRDN
  deriving DecidableEq, Repr

/-- The loop of `ResolveFirstRDN`. -/
def firstRDN (equalFold : Bytes → Bytes → Bool) (relativeField : Bytes) :
    List RelativeDN → Except Fault Bytes
  | [] => .error .noSuchRDN
  | rdn :: rdns =>
    match rdn.attributes with
    | [] => .error .indexOutOfRange
    | attr0 :: _ =>
      if equalFold relativeField attr0.type then .ok attr0.value
      else firstRDN equalFold relativeField rdns

def resolveFirstRDN (equalFold : Bytes → Bytes → Bool) (ber : Ber) (rawDN relativeField : Bytes) :
    Except Fault Bytes :=
  (parseDN ber rawDN).mapError .unparsed >>= firstRDN equalFold relativeField

section WellFormed

/-- Every RDN has an attribute, every attribute a type. -/
def WellFormed (rdns : List RelativeDN) : Prop :=
  ∀ rdn ∈ rdns, rdn.attributes ≠ [] ∧ ∀ a ∈ rdn.attributes, a.type ≠ []

/-- The same of the names the loop has read so far. -/
structure State.Sound (st : State) : Prop where
  rdns : WellFormed st.rdns
  attributes : ∀ a ∈ st.attributes, a.type ≠ []

variable {ber : Ber} {st st' : State}

theorem WellFormed.snoc {rdns : List RelativeDN} (h : WellFormed rdns) {attributes}
    (hne : attributes ≠ []) (htypes : ∀ a ∈ attributes, AttributeTypeAndValue.type a ≠ []) :
    WellFormed (rdns ++ [⟨attributes⟩]) := by
  intro rdn hrdn
  rcases List.mem_append.mp hrdn with hold | hnew
  · exact h rdn hold
  · rw [List.mem_singleton.mp hnew]
    exact ⟨hne, htypes⟩

theorem State.Sound.append (hst : st.Sound) (htype : st.type ≠ []) (value : Bytes) (last : Bool) :
    (st.appendAttributesToRDN value last).Sound := by
  have htypes : ∀ a ∈ st.attributes ++ [⟨st.type, value⟩], AttributeTypeAndValue.type a ≠ [] := by
    intro a ha
    rcases List.mem_append.mp ha with hold | hnew
    · exact hst.attributes a hold
    · rw [List.mem_singleton.mp hnew]
      exact htype
  cases last with
  | true => exact ⟨hst.rdns.snoc (by simp) htypes, fun _ h => (List.not_mem_nil h).elim⟩
  | false => exact ⟨hst.rdns, htypes⟩

theorem step_sound (hst : st.Sound) {b : UInt8} (hstep : step ber st b = .ok st') : st'.Sound := by
  rw [step] at hstep
  split at hstep
  · cases hstep
    exact ⟨hst.rdns, hst.attributes⟩
  split at hstep
  · cases hstep
    exact ⟨hst.rdns, hst.attributes⟩
  split at hstep
  · obtain ⟨t, -, rfl⟩ := map_eq_ok.mp hstep
    exact ⟨hst.rdns, hst.attributes⟩
  split at hstep
  · split at hstep
    · cases hstep
    · rename_i htype
      obtain ⟨v, -, rfl⟩ := map_eq_ok.mp hstep
      exact hst.append htype v _
  · cases hstep
    exact ⟨hst.rdns, hst.attributes⟩

theorem scan_sound {s : Bytes} (hst : st.Sound) (hscan : scan ber st s = .ok st') : st'.Sound := by
  induction s generalizing st with
  | nil => cases hscan; exact hst
  | cons b s ih =>
    rw [scan_cons] at hscan
    cases hstep : step ber st b with
    | error e =>
      rw [hstep] at hscan
      cases hscan
    | ok next =>
      rw [hstep] at hscan
      exact ih (step_sound hst hstep) hscan

theorem parse_wellFormed {raw : Bytes} {rdns : List RelativeDN}
    (hparse : parseDN ber raw = .ok rdns) : WellFormed rdns := by
  rw [parseDN] at hparse
  split at hparse
  · cases hparse
    exact fun rdn hrdn => (List.not_mem_nil hrdn).elim
  cases hscan : scan ber {} raw with
  | error e =>
    rw [hscan] at hparse
    cases hparse
  | ok st =>
    have hst : st.Sound := scan_sound
      ⟨fun _ h => (List.not_mem_nil h).elim, fun _ h => (List.not_mem_nil h).elim⟩ hscan
    rw [hscan, Except.bind, finish] at hparse
    split at hparse
    · cases hparse
    · rename_i htype
      obtain ⟨v, -, rfl⟩ := map_eq_ok.mp hparse
      exact (hst.append htype v true).rdns

end WellFormed

section Resolve

variable (equalFold : Bytes → Bytes → Bool) (field : Bytes)

/-- The first attribute of the RDN, the only one the code looks at. -/
def RelativeDN.attr0 (rdn : RelativeDN) : AttributeTypeAndValue := rdn.attributes.headD ⟨[], []⟩

theorem firstRDN_eq {rdns : List RelativeDN} (h : WellFormed rdns) :
    firstRDN equalFold field rdns =
      match rdns.find? fun rdn => equalFold field rdn.attr0.type with
      | some rdn => .ok rdn.attr0.value
      | none => .error .noSuchRDN := by
  induction rdns with
  | nil => rfl
  | cons rdn rdns ih =>
    obtain ⟨attr0, rest, hattrs⟩ := List.exists_cons_of_ne_nil (h rdn List.mem_cons_self).1
    have hfirst : rdn.attr0 = attr0 := by simp [RelativeDN.attr0, hattrs]
    have hrest := ih fun r hr => h r (List.mem_cons_of_mem _ hr)
    simp only [firstRDN, hattrs, List.find?_cons, hfirst]
    cases hfold : equalFold field attr0.type with
    | true => simp [hfirst]
    | false => simpa using hrest

/-- Whatever the directory gives as a name: a name that is read has an attribute with a
type in every RDN, so looking for an RDN in it does not panic. -/
theorem resolve_never_panics (ber : Ber) (raw : Bytes) :
    (∀ rdns, parseDN ber raw = .ok rdns → WellFormed rdns) ∧
      resolveFirstRDN equalFold ber raw field ≠ .error .indexOutOfRange := by
  refine ⟨fun rdns => parse_wellFormed, ?_⟩
  rw [resolveFirstRDN]
  cases hparse : parseDN ber raw with
  | error e =>
    intro h
    cases h
  | ok rdns =>
    change firstRDN equalFold field rdns ≠ _
    rw [firstRDN_eq equalFold field (parse_wellFormed hparse)]
    intro h
    split at h <;> cases h

end Resolve

section Environment

/-- A string that is not UTF-8 is shown with U+FFFD in it. -/
def shown (s : Bytes) : String := String.ofList (runes s)

def utf8 (s : String) : Bytes := encode s.toList

/-- `strings.EqualFold` compares the characters of the two texts. -/
def equalFold (env : Env) (s t : Bytes) : Bool := env.equalFold (shown s) (shown t)

/-- The environment whose names are read by the vendored parser. -/
def vendored (env : Env) (ber : Ber) : Env :=
  { env with
    parseDN := fun dn => (parseDN ber (utf8 dn)).toOption.map fun rdns =>
      rdns.map fun rdn => (shown rdn.attr0.type, shown rdn.attr0.value) }

@[simp] theorem shown_encode (cs : List Char) : shown (encode cs) = String.ofList cs := by
  rw [shown, runes_encode]

@[simp] theorem shown_utf8 (s : String) : shown (utf8 s) = s := by
  rw [utf8, shown_encode, String.ofList_toList]

@[simp] theorem utf8_ofList (cs : List Char) : utf8 (String.ofList cs) = encode cs := by
  rw [utf8, String.toList_ofList]

/-- The model's `resolveFirstRDN` is the one of the code, its errors left out. -/
theorem resolve_refines (env : Env) (ber : Ber) (dn field : String) :
    Ldap.resolveFirstRDN (vendored env ber) dn field =
      (resolveFirstRDN (equalFold env) ber (utf8 dn) (utf8 field)).toOption.map shown := by
  simp only [Ldap.resolveFirstRDN, resolveFirstRDN, vendored]
  cases hparse : parseDN ber (utf8 dn) with
  | error e => rfl
  | ok rdns =>
    have hfind : (fun rdn => env.equalFold field rdn.1) ∘
        (fun rdn : RelativeDN => (shown rdn.attr0.type, shown rdn.attr0.value)) =
        fun rdn => equalFold env (utf8 field) rdn.attr0.type := by
      funext rdn
      simp [equalFold]
    change Option.map Prod.snd (List.find? (fun rdn => env.equalFold field rdn.1) (rdns.map _)) =
      (firstRDN (equalFold env) (utf8 field) rdns).toOption.map shown
    rw [List.find?_map, hfind, firstRDN_eq _ _ (parse_wellFormed hparse)]
    cases rdns.find? fun rdn => equalFold env (utf8 field) rdn.attr0.type with
    | none => rfl
    | some rdn => rfl

/-- An expression such as `{dn.cn}` or `{member.cn}` gets the value of the first RDN
whose first attribute has that type, out of any text of the name without values in BER or
spaces after an escaped backslash: escapes are undone, and nothing a value holds is taken
for another RDN. -/
theorem resolve_written (env : Env) (ber : Ber) (n : WrittenDN) (field : String) :
    Ldap.resolveFirstRDN (vendored env ber) (String.ofList n.chars) field =
      (n.rdns.find? fun rdn => env.equalFold field (shown rdn.attr0.type)).map
        fun rdn => shown rdn.attr0.value := by
  have hwell : WellFormed n.rdns := parse_wellFormed (parse_written ber n)
  have hparse : (parseDN ber (encode n.chars)).mapError Fault.unparsed = .ok n.rdns := by
    rw [parse_written]
    rfl
  rw [resolve_refines, utf8_ofList, resolveFirstRDN, hparse]
  change (firstRDN _ _ n.rdns).toOption.map shown = _
  rw [firstRDN_eq _ _ hwell]
  simp only [equalFold, shown_utf8]
  cases n.rdns.find? fun rdn => env.equalFold field (shown rdn.attr0.type) with
  | none => rfl
  | some rdn => rfl

end Environment

end Ldap2pg.Ldap.DN
