import Ldap2pg.Lib.Template
import Ldap2pg.Privileges.Acl
import Ldap2pg.Roles.Hooks

/-! # The statements of grants

`FormatQuery` makes the query of a grant from a template, `RewriteQuery` the statement
that is sent from the query. Percent signs are doubled, keywords put in one after the
other, then each other placeholder becomes a verb; indentation goes, and `fmt.Sprintf`
takes the quoted identifiers. **Together this is one substitution** in the template,
for keywords that fit in it. -/
namespace Ldap2pg.Privileges
open Lib Lib.Template Roles Roles.Hooks

/-- `fmt.Sprintf` with operands, for a format of texts, `%%` and one `%s` for each. -/
structure Formatter extends Conn where
  sprintf_expand : ∀ s ops out, Sprintf.expand s ops = some out → sprintf s ops = out

/-- The text that stands for a keyword of the template. -/
def Grant.raw (g : Grant) (template m : List Char) : Option (List Char) :=
  if m = "<privilege>".toList then some g.type.toList
  else if m = "<acl>".toList then some g.acl.toList
  else if m = "<object>".toList ∧ "<owner>".toList ∈ Text.findBracketed template then
    some g.object.toList
  else none

/-- The quoted identifier that stands for another placeholder. -/
def Grant.quoted (conn : Conn) (g : Grant) (m : List Char) : List Char :=
  ((g.argument (String.ofList m)).map fun name => (conn.sanitize name).toList).getD m

/-- What stands for a placeholder of the template in the statement. -/
def Grant.replacement (conn : Conn) (g : Grant) (template m : List Char) : List Char :=
  (g.raw template m).getD (g.quoted conn m)

/-- The keywords of the template stand for texts that fit. -/
def Grant.Fits (g : Grant) (s : List Char) : Prop :=
  ∀ m r, m ∈ words (pieces s) → g.raw s m = some r → Template.Fits s m r

/-! ## Keywords -/

theorem bracket_privilege : Bracket "<privilege>".toList :=
  bracket_of_letters (w := "privilege".toList) (by simp) rfl

theorem bracket_acl : Bracket "<acl>".toList := bracket_of_letters (w := "acl".toList) (by simp) rfl

theorem bracket_object : Bracket "<object>".toList :=
  bracket_of_letters (w := "object".toList) (by simp) rfl

theorem bracket_owner : Bracket "<owner>".toList :=
  bracket_of_letters (w := "owner".toList) (by simp) rfl

section Keywords
variable {g : Grant} {s : List Char}

/-- Part of the keywords makes no word either. -/
theorem Grant.Fits.scanned (h : g.Fits s) {raw : List Char → Option (List Char)}
    (hraw : ∀ m r, raw m = some r → g.raw s m = some r) :
    Scanned ((pieces s).flatMap (put raw)) := by
  refine scanned_put (s := s) ?_ (scanned_pieces s) fun m r hm hr =>
    h m r (mem_words.mpr hm) (hraw m r hr)
  rw [text_pieces]

/-- The keywords of every template. -/
def Grant.common (g : Grant) (m : List Char) : Option (List Char) :=
  if m = "<privilege>".toList then some g.type.toList
  else if m = "<acl>".toList then some g.acl.toList else none

theorem Grant.raw_of_common {m r : List Char} (h : g.common m = some r) : g.raw s m = some r := by
  unfold Grant.common at h
  unfold Grant.raw
  split at h
  · next hm => rw [if_pos hm, h]
  · next hm =>
    split at h
    · next hm' => rw [if_neg hm, if_pos hm', h]
    · cases h

theorem Grant.Fits.common_eq (h : g.Fits s) :
    Text.replaceAll (Text.replaceAll (Text.replaceAll s "%" "%%") "<privilege>" g.type)
        "<acl>" g.acl =
      text ((pieces s).flatMap (put g.common)) := by
  let first : List Char → Option (List Char) :=
    fun m => if m = "<privilege>".toList then some g.type.toList else none
  have hnone : Scanned ((pieces s).flatMap (put fun _ => none)) :=
    h.scanned fun _ _ hr => nomatch hr
  have hfirst : Scanned ((pieces s).flatMap (put first)) := h.scanned fun m r hr => by
    obtain ⟨hm, hr⟩ := Option.ite_none_right_eq_some.mp hr
    rw [Grant.raw, if_pos hm, hr]
  have htype : Text.replaceAll (text ((pieces s).flatMap (put fun _ => none))) "<privilege>"
      g.type = text ((pieces s).flatMap (put first)) := replace_put bracket_privilege hnone g.type
  rw [replace_percent, htype, replace_put bracket_acl hfirst]
  congr 3
  funext m
  unfold Grant.common
  by_cases hm : m = "<privilege>".toList
  · simp only [first, if_pos hm, Option.some_or]
  · simp only [first, if_neg hm, Option.none_or]

/-- The test for an owner is made on the text with the keywords. -/
theorem Grant.Fits.owner_iff (h : g.Fits s) :
    (text ((pieces s).flatMap (put g.common))).tails.any "<owner>".toList.isPrefixOf = true ↔
      "<owner>".toList ∈ Text.findBracketed s := by
  have hscanned := h.scanned fun _ _ => Grant.raw_of_common
  rw [any_isPrefixOf bracket_owner, findBracketed_eq, hscanned.pieces_text, words_put,
    findBracketed_eq, List.mem_filter]
  exact and_iff_left rfl

/-- **The keywords are put in all at once.** -/
theorem Grant.Fits.keywords_eq (h : g.Fits s) :
    g.keywords s = text ((pieces s).flatMap (put (g.raw s))) := by
  unfold Grant.keywords
  simp only
  rw [h.common_eq]
  have hcommon := h.scanned fun _ _ => Grant.raw_of_common
  split
  · next howner =>
    rw [replace_put bracket_object hcommon]
    congr 3
    funext m
    rw [h.owner_iff] at howner
    unfold Grant.common Grant.raw
    split
    · rfl
    · split
      · rfl
      · rw [Option.none_or]
        exact if_congr (iff_of_eq (and_iff_left howner).eq.symm) rfl rfl
  · next howner =>
    congr 3
    funext m
    rw [h.owner_iff] at howner
    unfold Grant.common Grant.raw
    have hobject : ¬ (m = "<object>".toList ∧ "<owner>".toList ∈ Text.findBracketed s) :=
      fun hm => howner hm.2
    rw [if_neg hobject]

end Keywords

/-! ## Formats -/

/-- Which placeholders are known does not depend on the grant. -/
theorem Grant.isSome_argument (g g' : Grant) (m : String) :
    (g.argument m).isSome = (g'.argument m).isSome := by
  unfold Grant.argument
  repeat' split
  all_goals rfl

section Format
variable {g : Grant} {template : String}

/-- The placeholders that are not keywords. -/
def Grant.others (g : Grant) (s : List Char) : List (List Char) :=
  (words (pieces s)).filter fun m => (g.raw s m).isNone

/-- `FormatQuery` on a template. -/
theorem Grant.Fits.formatQuery_eq (h : g.Fits template.toList) :
    g.formatQuery template =
      match (g.others template.toList).mapM fun m => g.argument (String.ofList m) with
      | none => {}
      | some args => ⟨String.ofList ((pieces template.toList).flatMap
          (format (g.raw template.toList))), args⟩ := by
  have hscanned := h.scanned fun _ _ hr => hr
  have hwords : Text.findBracketed (g.keywords template.toList) = g.others template.toList := by
    rw [h.keywords_eq, findBracketed_eq, hscanned.pieces_text, words_put]
    rfl
  have htext : (g.others template.toList).foldl (Text.replaceFirst · · "%s".toList)
      (g.keywords template.toList) =
      (pieces template.toList).flatMap (format (g.raw template.toList)) := by
    rw [← hwords, foldl_replaceFirst_eq, h.keywords_eq, substitute_put hscanned]
  unfold Grant.formatQuery
  cases hargs : (g.others template.toList).mapM fun m => g.argument (String.ofList m) with
  | none => simp only [hwords, hargs]
  | some args => simp only [hwords, htext, hargs]

/-- Which placeholders are keywords does not depend on the grant. -/
theorem Grant.others_congr (g g' : Grant) (s : List Char) : g.others s = g'.others s := by
  refine List.filter_congr fun m _ => ?_
  unfold Grant.raw
  repeat' split
  all_goals rfl

theorem ACL.register_formats {reg reg' : Registry} {a : ACL} (h : a.register reg = .ok reg')
    (hmem : template ∈ [a.grant, a.revoke]) :
    ((tryout a.name).formatQuery template).isZero = false := by
  unfold ACL.register at h
  split at h
  · cases h
  · split at h
    · cases h
    · next hgrant =>
      split at h
      · cases h
      · next hrevoke =>
        rcases List.mem_cons.mp hmem with rfl | hmem
        · exact Bool.eq_false_iff.mpr hgrant
        · rw [List.mem_singleton.mp hmem]
          exact Bool.eq_false_iff.mpr hrevoke

theorem ACL.exists_register {a : ACL} (hscope : ¬ (a.name ≠ "GLOBAL DEFAULT" ∧
      a.name ≠ "SCHEMA DEFAULT" ∧ a.scope ≠ "instance" ∧ a.scope ≠ "database"))
    (hgrant : ((tryout a.name).formatQuery a.grant).isZero = false)
    (hrevoke : ((tryout a.name).formatQuery a.revoke).isZero = false) (reg : Registry) :
    ∃ reg', a.register reg = .ok reg' := by
  refine ⟨{ reg with acls := reg.acls.insert a.name a }, ?_⟩
  rw [ACL.register, if_neg hscope, if_neg (Bool.eq_false_iff.mp hgrant),
    if_neg (Bool.eq_false_iff.mp hrevoke)]

/-- The fields of the grant that templates are tried on fit anywhere. -/
theorem Grant.Fits.tryout {s : List Char} (h : g.Fits s) : (tryout g.acl).Fits s := by
  intro m r hm hr
  unfold Grant.raw at hr
  split at hr
  · obtain rfl := Option.some.inj hr
    exact fits_of_all (r := "PRIV".toList) rfl rfl
  · next hprivilege =>
    split at hr
    · next hacl =>
      refine h m r hm ?_
      rw [Grant.raw, if_neg hprivilege, if_pos hacl]
      exact hr
    · split at hr
      · obtain rfl := Option.some.inj hr
        exact fits_of_all (r := "_object_".toList) rfl rfl
      · cases hr

/-- **A template that was registered is formatted**, with an identifier for each
placeholder that is not a keyword. -/
theorem Grant.Fits.formatQuery_registered {reg reg' : Registry} {a : ACL}
    (h : g.Fits template.toList) (hreg : a.register reg = .ok reg') (hacl : g.acl = a.name)
    (hmem : template ∈ [a.grant, a.revoke]) :
    (∀ m ∈ g.others template.toList, (g.argument (String.ofList m)).isSome = true) ∧
    pieces template.toList ≠ [] ∧
    g.formatQuery template =
      ⟨String.ofList ((pieces template.toList).flatMap (format (g.raw template.toList))),
        (g.others template.toList).map fun m => (g.argument (String.ofList m)).getD ""⟩ := by
  have htried := ACL.register_formats hreg hmem
  rw [← hacl, h.tryout.formatQuery_eq] at htried
  split at htried
  · cases htried
  · next args hargs =>
    have hall := (mapM_some_iff.mp hargs).1
    rw [Grant.others_congr _ g] at hall
    have hknown : ∀ m ∈ g.others template.toList, (g.argument (String.ofList m)).isSome = true :=
      fun m hm => (Grant.isSome_argument g _ _).trans (hall m hm)
    refine ⟨hknown, fun hnil => ?_, ?_⟩
    · rw [hnil] at htried
      cases htried
    · rw [h.formatQuery_eq, mapM_some_iff.mpr ⟨hknown, rfl⟩]
      rfl

end Format

/-! ## Statements -/

/-- The texts that stand for the keywords of the template have one line, no white space
at their edges and no percent sign nor bracket, and cannot end a word of the template. -/
def Grant.Plain (g : Grant) (s : List Char) : Prop :=
  ∀ m r, m ∈ Text.findBracketed s → g.raw s m = some r → Template.Fits s m r ∧ Compact r

section Statement
variable {g : Grant} {s : List Char}

theorem Grant.Plain.fits (h : g.Plain s) : g.Fits s :=
  fun m r hm hr => (h m r (findBracketed_eq s ▸ hm) hr).1

theorem Grant.Plain.compact (h : g.Plain s) {m r : List Char} (hm : m ∈ words (pieces s))
    (hr : g.raw s m = some r) : Compact r :=
  (h m r (findBracketed_eq s ▸ hm) hr).2

theorem mapM_formatArg_ident (conn : Conn) (names : List String) :
    (names.map Arg.ident).mapM (formatArg conn) = some (names.map conn.sanitize) := by
  induction names with
  | nil => rfl
  | cons name names ih => rw [List.map_cons, List.mapM_cons, ih]; rfl

/-- A format is not empty. -/
theorem Grant.Plain.format_ne_nil (h : g.Plain s) (hne : pieces s ≠ []) :
    (pieces s).flatMap (format (g.raw s)) ≠ [] := by
  obtain ⟨p, hp⟩ := List.exists_mem_of_ne_nil _ hne
  intro hnil
  have hempty := List.flatMap_eq_nil_iff.mp hnil p hp
  cases p with
  | char c =>
    rw [format] at hempty
    split at hempty <;> cases hempty
  | word m =>
    rw [format] at hempty
    cases hm : g.raw s m with
    | none => rw [hm] at hempty; cases hempty
    | some r =>
      obtain ⟨d, t, hr, _⟩ := (h.compact (mem_words.mpr hp) hm).head
      rw [hm, Option.getD_some, hr] at hempty
      cases hempty

theorem words_layout (conn : Conn) (template : String) :
    words (pieces (layout conn template).toList) = words (pieces template.toList) := by
  rw [layout, String.toList_ofList]
  exact (blind_words.trimSpace _).trans (conn.dedents.blind blind_words _)

/-- The format that is sent is that of the layout of the template. -/
theorem Grant.Plain.layout_eq {template : String} (h : g.Plain template.toList) (conn : Conn) :
    (layout conn (String.ofList
      ((pieces template.toList).flatMap (format (g.raw template.toList))))).toList =
      (pieces (layout conn template).toList).flatMap (format (g.raw template.toList)) := by
  rw [layout, layout, String.toList_ofList, String.toList_ofList, String.toList_ofList]
  exact layout_format conn.dedents fun m r hm hr => h.compact hm hr

theorem substitute_replacement (conn : Conn) (g : Grant) (template s : List Char) :
    substitute (g.replacement conn template) s =
      (pieces s).flatMap (formatted (g.raw template) (g.quoted conn)) := by
  refine List.flatMap_congr fun p _ => ?_
  cases p <;> rfl

section Registered
variable {reg reg' : Registry} {a : ACL} {template : String} (hreg : a.register reg = .ok reg')
  (hacl : g.acl = a.name) (hmem : template ∈ [a.grant, a.revoke])
  (hplain : g.Plain template.toList)
include hreg hacl hmem hplain

theorem Grant.isZero_registered : (g.formatQuery template).isZero = false := by
  obtain ⟨_, hne, hquery⟩ := hplain.fits.formatQuery_registered hreg hacl hmem
  rw [hquery]
  refine beq_eq_false_iff_ne.mpr fun hempty => hplain.format_ne_nil hne ?_
  have hlist := congrArg String.toList hempty
  rwa [String.toList_ofList] at hlist

theorem Grant.verbs_registered : Sprintf.verbs (g.formatQuery template).query.toList =
    (g.formatQuery template).queryArgs.length := by
  obtain ⟨_, _, hquery⟩ := hplain.fits.formatQuery_registered hreg hacl hmem
  rw [hquery]
  simp only [String.toList_ofList, List.length_map]
  exact verbs_format fun m r hm hr => (hplain.fits m r (mem_words.mpr hm) hr).percent

theorem Grant.rewriteQuery_registered (f : Formatter) :
    rewriteQuery f.toConn (g.formatQuery template).query
        ((g.formatQuery template).queryArgs.map Arg.ident) =
      some (String.ofList (substitute (g.replacement f.toConn template.toList)
        (layout f.toConn template).toList)) := by
  obtain ⟨hknown, _, hquery⟩ := hplain.fits.formatQuery_registered hreg hacl hmem
  -- the operands are those of the layout of the template
  have hops : (((g.others template.toList).map fun m =>
      (g.argument (String.ofList m)).getD "").map f.sanitize).map String.toList =
      ((words (pieces (layout f.toConn template).toList)).filter fun m =>
        (g.raw template.toList m).isNone).map (g.quoted f.toConn) := by
    rw [words_layout, List.map_map, List.map_map]
    refine List.map_congr_left fun m hm => ?_
    obtain ⟨name, hname⟩ := Option.isSome_iff_exists.mp (hknown m hm)
    simp only [Function.comp_apply, Grant.quoted, hname, Option.getD_some, Option.map_some]
  have hpercent : ∀ m r, .word m ∈ pieces (layout f.toConn template).toList →
      g.raw template.toList m = some r → '%' ∉ r := fun m r hm hr =>
    (hplain.fits m r (words_layout f.toConn template ▸ mem_words.mpr hm) hr).percent
  have hexpand := expand_format hpercent (g.quoted f.toConn)
  rw [hquery, rewriteQuery, mapM_formatArg_ident]
  simp only [Option.bind_eq_bind, Option.bind_some, Option.pure_def]
  rw [hplain.layout_eq, hops, f.sprintf_expand _ _ _ hexpand, substitute_replacement]

end Registered

/-- **Statements are substitutions.** The query of a registered template is not empty, has
a verb for each argument, and is sent as the template without its indentation, where
each placeholder is replaced by what stands for it. -/
theorem statement_substituted (f : Formatter) {reg reg' : Registry} {a : ACL} {g : Grant}
    {template : String} (hreg : a.register reg = .ok reg') (hacl : g.acl = a.name)
    (hmem : template ∈ [a.grant, a.revoke]) (hplain : g.Plain template.toList) :
    (g.formatQuery template).isZero = false ∧
    Sprintf.verbs (g.formatQuery template).query.toList =
      (g.formatQuery template).queryArgs.length ∧
    rewriteQuery f.toConn (g.formatQuery template).query
        ((g.formatQuery template).queryArgs.map Arg.ident) =
      some (String.ofList (substitute (g.replacement f.toConn template.toList)
        (layout f.toConn template).toList)) :=
  ⟨Grant.isZero_registered hreg hacl hmem hplain, Grant.verbs_registered hreg hacl hmem hplain,
    Grant.rewriteQuery_registered hreg hacl hmem hplain f⟩

theorem Grant.raw_cases {m r : List Char} (h : g.raw s m = some r) :
    r = g.type.toList ∨ r = g.acl.toList ∨
      "<owner>".toList ∈ Text.findBracketed s ∧ r = g.object.toList := by
  unfold Grant.raw at h
  split at h
  · exact .inl (Option.some.inj h).symm
  · split at h
    · exact .inr (.inl (Option.some.inj h).symm)
    · split at h
      · next howner => exact .inr (.inr ⟨howner.2, (Option.some.inj h).symm⟩)
      · cases h

namespace Sample

/-- Identifiers are quoted, and formats expanded where they can be. -/
def formatter : Formatter where
  sanitize := fun name => String.ofList ('"' :: (Text.replaceAll name.toList "\"" "\"\"" ++ ['"']))
  escapeString := some
  sprintf := fun s ops => (Sprintf.expand s ops).getD (Sprintf.sprintf s)
  sprintf_nil := fun s => by
    cases h : Sprintf.expand s [] with
    | none => rfl
    | some out => exact (Sprintf.sprintf_of_expand h).symm
  sprintf_expand := fun s ops out h => by rw [h, Option.getD_some]
  dedent := Layout.dedent
  dedents := Layout.dedents

def custom (template : String) : ACL where
  name := "TABLE"
  scope := "instance"
  grant := template
  revoke := template

def noRegistry : Registry := ⟨∅, ∅, ∅⟩

def indented : String :=
  "
    GRANT <privilege> ON <acl> <schema>.<object>
      TO <grantee>; -- 100%
  "

def reading (type : String) : Grant :=
  { acl := "TABLE", type, schema := "nsp", object := "50%s", grantee := "<owner>" }

end Sample

open Sample

theorem register_custom {template : String}
    (h : ((tryout "TABLE").formatQuery template).isZero = false) :
    ∃ reg, (custom template).register noRegistry = .ok reg :=
  ACL.exists_register (a := custom template) (fun hscope => hscope.2.2.1 rfl) h h noRegistry

/-- Percent signs and brackets in identifiers stay there. -/
theorem indented_substituted :
    rewriteQuery formatter.toConn ((reading "SELECT").formatQuery indented).query
        (((reading "SELECT").formatQuery indented).queryArgs.map Arg.ident) =
      some "GRANT SELECT ON TABLE \"nsp\".\"50%s\"\n  TO \"<owner>\"; -- 100%" := by
  obtain ⟨reg, hreg⟩ := @register_custom indented (by decide +kernel)
  have hplain : (reading "SELECT").Plain indented.toList := by
    intro m r _ hr
    rcases Grant.raw_cases hr with rfl | rfl | ⟨howner, _⟩
    · exact ⟨fits_of_all (r := "SELECT".toList) rfl rfl,
        compact_of_edges (c := 'S') (r := "ELEC".toList) (d := 'T') (by simp) rfl rfl⟩
    · exact ⟨fits_of_all (r := "TABLE".toList) rfl rfl,
        compact_of_edges (c := 'T') (r := "ABL".toList) (d := 'E') (by simp) rfl rfl⟩
    · exact absurd howner (by decide +kernel)
  have hstatement := (statement_substituted formatter hreg rfl List.mem_cons_self hplain).2.2
  refine hstatement.trans ?_
  decide +kernel

/-- Letters in brackets make another placeholder; an empty text can leave nothing; white
space at the edge of a text goes with that of the template. -/
theorem keywords_break_templates :
    ((∃ reg, (custom "<<privilege>>").register noRegistry = .ok reg) ∧
      ((reading "select").formatQuery "<<privilege>>").isZero = true) ∧
    ((∃ reg, (custom "<privilege>").register noRegistry = .ok reg) ∧
      ((reading "").formatQuery "<privilege>").isZero = true ∧
      rewriteQuery formatter.toConn ((reading "ALL ").formatQuery "<privilege>").query [] =
        some "ALL" ∧
      substitute ((reading "ALL ").replacement formatter.toConn "<privilege>".toList)
        (layout formatter.toConn "<privilege>").toList = "ALL ".toList) := by
  refine ⟨⟨register_custom ?_, ?_⟩, register_custom ?_, ?_, ?_, ?_⟩
  all_goals decide +kernel

end Statement

end Ldap2pg.Privileges
