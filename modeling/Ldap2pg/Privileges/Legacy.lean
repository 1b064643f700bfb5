import Ldap2pg.Privileges.Managed
import Ldap2pg.Privileges.Statement

/-! # Default privileges in the syntax of 6.2

A `default` key is rewritten to an ACL, and the privilege gets an object. **The object is
the type of the privilege, not the class that it was on**: the statement grants the
class that was asked for only if the class has the name of the type. -/
namespace Ldap2pg.Privileges.Legacy
open Lib Lib.Template Pyfmt Normalize
open Roles Roles.Hooks Inclusion Managed

variable {scope : String}

/-- The syntax of 6.2. -/
def legacy (scope type cls : String) : Yaml :=
  .map [("default", .str scope), ("type", .str type), ("on", .str cls)]

/-- The same privilege in the current syntax. -/
def current (u : Strings) (scope type cls : String) : Yaml :=
  defaultYaml type (u.toUpper scope ++ " DEFAULT") cls

/-! ## 1. What is normalised -/

section Normalise
variable {u : Strings} {o : Order}

/-- A map with one type, once rewritten, is one privilege. -/
theorem normalizeItem_single {item : Yaml} {raw m : Dict Yaml} {type : String}
    (hitem : item.asString = none) (hraw : item.asMap = some raw) (hm : rewriteDefault u raw = m)
    (hkeys : ∀ k ∈ m, k ∈ ["type", "on", "object"]) (htype : m["type"]? = some (.str type)) :
    normalizeItem u o item = .ok [.ofMap m] := by
  have htypes : "types" ∉ m := fun h => absurd (hkeys "types" h) (by decide)
  obtain ⟨renamed, hrenamed⟩ : ∃ renamed, aliasKey m "types" "type" = .ok renamed :=
    aliasKey_ok_iff.mpr fun h => htypes h.2
  have hknown : ∀ k ∈ renamed.insert "types" (.list (Normalize.list (renamed["types"]?.getD .null))),
      k ∈ ["types", "on", "object"] := by
    intro k hk
    obtain ⟨v, hv⟩ := Dict.mem_iff.mp hk
    rw [Dict.get_insert] at hv
    by_cases htypes : k = "types"
    · simp [htypes]
    · rw [if_neg (Ne.symm htypes), aliasKey_get hrenamed (by decide), if_neg htypes] at hv
      split at hv
      · cases hv
      · next hne =>
        have hin := hkeys k (Dict.mem_iff.mpr ⟨v, hv⟩)
        simp only [List.mem_cons, hne, false_or] at hin
        exact List.mem_cons_of_mem _ (by simpa using hin)
  have hprivilege : ∃ out, normalizePrivilege u o item = .ok out := by
    rw [normalizePrivilege, hraw]
    simp only
    rw [hm, hrenamed, ok_bind, spuriousKeys_ok_iff.mpr hknown]
    exact ⟨_, rfl⟩
  obtain ⟨out, hout⟩ := hprivilege
  obtain ⟨l, hl⟩ := duplicatePrivilege_ok hout
  have hok : normalizeItem u o item = .ok l := by
    rw [normalizeItem_of_ref hitem, hout, ok_bind, hl]
  rw [hok, (normalizeItem_ref hitem hok).1, singles_eq hraw hm hkeys htype]
  rfl

/-- The map of a default privilege. -/
def entries (type on object : String) : Dict Yaml :=
  Dict.fill Prod.fst Prod.snd ∅ [("type", .str type), ("on", .str on), ("object", .str object)]

theorem entries_get (type on object : String) (k : String) :
    (entries type on object)[k]? =
      if k = "object" then some (.str object) else if k = "on" then some (.str on)
      else if k = "type" then some (.str type) else none := by
  simp only [entries, Dict.fill, List.foldl_cons, List.foldl_nil, Dict.get_insert, Dict.get_empty,
    eq_comm]

theorem regular_entry (type on object : String) :
    Regular (.ofMap (entries type on object)) (entries type on object) :=
  ⟨Yaml.asMap_ofMap _, (regular_entries (by simp)).keys⟩

theorem normalizeItem_current (scope type cls : String) :
    normalizeItem u o (current u scope type cls) =
      .ok [.ofMap (entries type (u.toUpper scope ++ " DEFAULT") cls)] := by
  have hregular := regular_entry type (u.toUpper scope ++ " DEFAULT") cls
  exact normalizeItem_single rfl rfl hregular.rewriteDefault hregular.keys (entries_get _ _ _ _)

/-- The map of the syntax of 6.2. -/
def legacyMap (scope type cls : String) : Dict Yaml :=
  Dict.fill Prod.fst Prod.snd ∅ [("default", .str scope), ("type", .str type), ("on", .str cls)]

theorem legacyMap_get (scope type cls : String) (k : String) :
    (legacyMap scope type cls)[k]? =
      if k = "on" then some (.str cls) else if k = "type" then some (.str type)
      else if k = "default" then some (.str scope) else none := by
  simp only [legacyMap, Dict.fill, List.foldl_cons, List.foldl_nil, Dict.get_insert,
    Dict.get_empty, eq_comm]

theorem rewriteDefault_legacy (hscope : scope ≠ "") (type cls : String) :
    rewriteDefault u (legacyMap scope type cls) =
      entries type (u.toUpper scope ++ " DEFAULT") type := by
  have hdefault : ((legacyMap scope type cls)["default"]?.bind Yaml.asString).getD "" = scope := by
    rw [legacyMap_get]
    rfl
  have htype : (legacyMap scope type cls)["type"]?.getD .null = .str type := by
    rw [legacyMap_get]
    rfl
  unfold rewriteDefault
  rw [hdefault, htype, if_neg hscope]
  refine Dict.ext_get fun k => ?_
  rw [Dict.get_erase, Dict.get_insert, Dict.get_insert, legacyMap_get, entries_get]
  by_cases hon : k = "on"
  · simp [hon]
  · by_cases hobject : k = "object"
    · simp [hobject]
    · by_cases hd : k = "default"
      · simp [hd]
      · simp [hon, hobject, hd, Ne.symm hon, Ne.symm hobject, Ne.symm hd]

/-- **The object of a rewritten privilege is its type.** -/
theorem normalizeItem_legacy (hscope : scope ≠ "") (type cls : String) :
    normalizeItem u o (legacy scope type cls) =
      .ok [.ofMap (entries type (u.toUpper scope ++ " DEFAULT") type)] := by
  exact normalizeItem_single rfl rfl (rewriteDefault_legacy hscope type cls)
    (regular_entry _ _ _).keys (entries_get _ _ _ _)

/-- Without a `default` the key is reported. -/
theorem normalizeItem_empty (type cls : String) (l : List Yaml) :
    normalizeItem u o (legacy "" type cls) ≠ .ok l := by
  intro h
  rw [normalizeItem_of_ref rfl] at h
  obtain ⟨m, hm, _⟩ := bind_eq_ok.mp h
  have hraw : (legacy "" type cls).asMap = some (legacyMap "" type cls) := rfl
  obtain ⟨hkeys, hget⟩ := normalizePrivilege_get hraw hm
  have hkept : rewriteDefault u (legacyMap "" type cls) = legacyMap "" type cls := by
    rw [rewriteDefault, legacyMap_get]
    rfl
  have hdefault : m["default"]? = some (.str "") := by
    rw [hget "default", hkept]
    exact legacyMap_get "" type cls "default"
  exact absurd (hkeys "default" (Dict.mem_iff.mpr ⟨_, hdefault⟩)) (by decide)

theorem entries_inj {type on object object' : String}
    (h : Yaml.ofMap (entries type on object) = Yaml.ofMap (entries type on object')) :
    object = object' := by
  have hmap := congrArg Yaml.asMap h
  rw [Yaml.asMap_ofMap, Yaml.asMap_ofMap] at hmap
  have hget := congrArg (fun m : Dict Yaml => m["object"]?) (Option.some.inj hmap)
  simp only [entries_get, if_pos] at hget
  exact Yaml.str.inj (Option.some.inj hget)

/-- The two syntaxes give one privilege when the class has the name of the type. -/
theorem normalizeItem_eq_iff {o' : Order} {type cls : String} :
    normalizeItem u o (legacy scope type cls) = normalizeItem u o' (current u scope type cls) ↔
      scope ≠ "" ∧ type = cls := by
  rw [normalizeItem_current]
  by_cases hscope : scope = ""
  · subst hscope
    exact iff_of_false (normalizeItem_empty type cls _) fun h => h.1 rfl
  · rw [normalizeItem_legacy hscope]
    constructor
    · intro h
      exact ⟨hscope, entries_inj (List.cons.inj (Except.ok.inj h)).1⟩
    · intro ⟨_, heq⟩
      rw [heq]

end Normalise

/-! ## 2. What is sent -/

/-- The grant of a privilege. -/
def grantOf (p : Privilege) (owner schema database grantee : String) : Grant :=
  { owner, grantee, acl := p.on, type := p.type, database, schema, object := p.object }

/-- What `Apply` sends for a grant. -/
def statement (f : Formatter) (a : ACL) (g : Grant) : Option String :=
  rewriteQuery f.toConn (g.formatQuery a.grant).query
    ((g.formatQuery a.grant).queryArgs.map Arg.ident)

/-- The statement that grants a type of privilege on a class of objects by default. -/
def onClass (conn : Conn) (a : ACL) (g : Grant) (type cls : String) : String :=
  "ALTER DEFAULT PRIVILEGES FOR ROLE " ++ conn.sanitize g.owner ++
    (if a.name = "SCHEMA DEFAULT" then " IN SCHEMA " ++ conn.sanitize g.schema else "") ++
    " GRANT " ++ type ++ " ON " ++ cls ++ " TO " ++ conn.sanitize g.grantee ++ ";"

/-- A text of SQL keywords. -/
structure Keyword (r : String) : Prop where
  percent : '%' ∉ r.toList
  opening : '<' ∉ r.toList
  closing : '>' ∉ r.toList
  compact : Compact r.toList

/-- The ACLs of default privileges. -/
theorem default_cases {a : ACL} (ha : a ∈ builtinACLs) (hname : a.name = scope ++ " DEFAULT") :
    a.name = "GLOBAL DEFAULT" ∨ a.name = "SCHEMA DEFAULT" := by
  have hlast : a.name.toList.getLast? = some 'T' := by
    rw [hname, String.toList_append, List.getLast?_append]
    rfl
  have hall : ∀ b ∈ builtinACLs, b.name.toList.getLast? = some 'T' →
      b.name = "GLOBAL DEFAULT" ∨ b.name = "SCHEMA DEFAULT" := by decide +kernel
  exact hall a ha hlast

/-- The text of a template of default privileges, or of a statement made from it. -/
def defaultText (a : ACL) (owner schema privilege object grantee : List Char) : List Char :=
  "ALTER DEFAULT PRIVILEGES FOR ROLE ".toList ++ (owner ++
    ((if a.name = "SCHEMA DEFAULT" then " IN SCHEMA ".toList ++ schema else []) ++
      (" GRANT ".toList ++ (privilege ++ (" ON ".toList ++ (object ++ (" TO ".toList ++
        (grantee ++ ";".toList))))))))

/-- What matters of a template of default privileges: its pieces, and that no word starts
before a keyword. -/
structure DefaultTemplate (a : ACL) : Prop where
  eq : a.grant.toList = defaultText a "<owner>".toList "<schema>".toList "<privilege>".toList
    "<object>".toList "<grantee>".toList
  laid : ∀ conn, layout conn a.grant = a.grant
  owner : "<owner>".toList ∈ Text.findBracketed a.grant.toList
  noACL : "<acl>".toList ∉ Text.findBracketed a.grant.toList
  apart : ∀ m ∈ ["<privilege>".toList, "<object>".toList], follows m a.grant.toList = false
  grant : ((tryout a.name).formatQuery a.grant).isZero = false
  revoke : ((tryout a.name).formatQuery a.revoke).isZero = false

theorem defaultTemplate {a : ACL} (ha : a ∈ builtinACLs)
    (hname : a.name = "GLOBAL DEFAULT" ∨ a.name = "SCHEMA DEFAULT") : DefaultTemplate a := by
  have hall : ∀ b ∈ builtinACLs, b.name = "GLOBAL DEFAULT" ∨ b.name = "SCHEMA DEFAULT" →
      (b.grant.toList = defaultText b "<owner>".toList "<schema>".toList "<privilege>".toList
        "<object>".toList "<grantee>".toList) ∧
      ('\n' ∉ b.grant.toList ∧ Layout.trimSpace b.grant.toList = b.grant.toList) ∧
      "<owner>".toList ∈ Text.findBracketed b.grant.toList ∧
      "<acl>".toList ∉ Text.findBracketed b.grant.toList ∧
      (∀ m ∈ ["<privilege>".toList, "<object>".toList], follows m b.grant.toList = false) ∧
      ((tryout b.name).formatQuery b.grant).isZero = false ∧
      ((tryout b.name).formatQuery b.revoke).isZero = false := by decide +kernel
  obtain ⟨heq, ⟨hline, htrim⟩, howner, hnoACL, hapart, hgrant, hrevoke⟩ := hall a ha hname
  exact ⟨heq, fun conn => layout_flush conn hline htrim, howner, hnoACL, hapart, hgrant, hrevoke⟩

theorem bracket_schema : Bracket "<schema>".toList :=
  bracket_of_letters (w := "schema".toList) (by simp) rfl

theorem bracket_grantee : Bracket "<grantee>".toList :=
  bracket_of_letters (w := "grantee".toList) (by simp) rfl

namespace DefaultTemplate
variable {a : ACL} (h : DefaultTemplate a)
include h

theorem substitute_eq {f : List Char → List Char} {owner schema privilege object grantee : List Char}
    (howner : f "<owner>".toList = owner) (hschema : f "<schema>".toList = schema)
    (hprivilege : f "<privilege>".toList = privilege) (hobject : f "<object>".toList = object)
    (hgrantee : f "<grantee>".toList = grantee) :
    substitute f a.grant.toList = defaultText a owner schema privilege object grantee := by
  have hend : substitute f ";".toList = ";".toList :=
    substitute_text f (u := ";".toList) (by decide) []
  subst howner hschema hprivilege hobject hgrantee
  rw [h.eq]
  unfold defaultText
  rw [substitute_text f (by decide), substitute_word f bracket_owner]
  split
  · rw [List.append_assoc, substitute_text f (by decide), substitute_word f bracket_schema,
      substitute_text f (by decide), substitute_word f bracket_privilege,
      substitute_text f (by decide), substitute_word f bracket_object,
      substitute_text f (by decide), substitute_word f bracket_grantee, hend, List.append_assoc]
  · rw [List.nil_append, substitute_text f (by decide), substitute_word f bracket_privilege,
      substitute_text f (by decide), substitute_word f bracket_object,
      substitute_text f (by decide), substitute_word f bracket_grantee, hend, List.nil_append]

/-- Texts of keywords fit in the template. -/
theorem plain {g : Grant} (htype : Keyword g.type) (hobject : Keyword g.object) :
    g.Plain a.grant.toList := by
  intro m r hm hr
  have hfits : ∀ {r : String}, Keyword r → m ∈ ["<privilege>".toList, "<object>".toList] →
      Bracket m → Template.Fits a.grant.toList m r.toList ∧ Compact r.toList :=
    fun hr hm hbracket => ⟨⟨hr.percent, hr.opening, hr.closing,
      .inr (apart_of_not_follows hbracket (h.apart m hm))⟩, hr.compact⟩
  unfold Grant.raw at hr
  split at hr
  · next heq =>
    obtain rfl := Option.some.inj hr
    exact hfits htype (by simp [heq]) (heq ▸ bracket_privilege)
  · split at hr
    · next heq => exact absurd (heq ▸ hm) h.noACL
    · split at hr
      · next heq =>
        obtain rfl := Option.some.inj hr
        exact hfits hobject (by simp [heq.1]) (heq.1 ▸ bracket_object)
      · cases hr

/-- The texts that stand for the placeholders. -/
theorem replacements (conn : Conn) (g : Grant) :
    g.replacement conn a.grant.toList "<owner>".toList = (conn.sanitize g.owner).toList ∧
    g.replacement conn a.grant.toList "<schema>".toList = (conn.sanitize g.schema).toList ∧
    g.replacement conn a.grant.toList "<privilege>".toList = g.type.toList ∧
    g.replacement conn a.grant.toList "<object>".toList = g.object.toList ∧
    g.replacement conn a.grant.toList "<grantee>".toList = (conn.sanitize g.grantee).toList := by
  refine ⟨?_, ?_, ?_, ?_, ?_⟩
  · rfl
  · rfl
  · rfl
  · have hprivilege : "<object>".toList ≠ "<privilege>".toList := by decide
    have hacl : "<object>".toList ≠ "<acl>".toList := by decide
    rw [Grant.replacement, Grant.raw, if_neg hprivilege, if_neg hacl, if_pos ⟨rfl, h.owner⟩,
      Option.getD_some]
  · rfl

/-- **The statement of a default privilege is on the class that is its object.** -/
theorem statement_eq (f : Formatter) {g : Grant} (hacl : g.acl = a.name)
    (hname : a.name = "GLOBAL DEFAULT" ∨ a.name = "SCHEMA DEFAULT") (htype : Keyword g.type)
    (hobject : Keyword g.object) :
    statement f a g = some (onClass f.toConn a g g.type g.object) := by
  have hscope : ¬ (a.name ≠ "GLOBAL DEFAULT" ∧ a.name ≠ "SCHEMA DEFAULT" ∧
      a.scope ≠ "instance" ∧ a.scope ≠ "database") :=
    fun hscope => hname.elim hscope.1 hscope.2.1
  obtain ⟨reg, hreg⟩ := ACL.exists_register hscope h.grant h.revoke ⟨∅, ∅, ∅⟩
  have hmem : a.grant ∈ [a.grant, a.revoke] := List.mem_cons_self
  have hsent := Grant.rewriteQuery_registered hreg hacl hmem (h.plain htype hobject) f
  obtain ⟨howner, hschema, hprivilege, hclass, hgrantee⟩ := h.replacements f.toConn g
  rw [h.laid, h.substitute_eq howner hschema hprivilege hclass hgrantee] at hsent
  rw [statement, hsent]
  refine congrArg some ?_
  unfold onClass defaultText
  by_cases hschemas : a.name = "SCHEMA DEFAULT"
  · rw [if_pos hschemas, if_pos hschemas]
    simp only [← String.toList_append, String.ofList_toList, String.append_assoc]
  · rw [if_neg hschemas, if_neg hschemas]
    simp only [← String.toList_append, List.nil_append, String.ofList_toList, String.append_assoc,
      String.empty_append]

end DefaultTemplate

theorem decodePrivilege_entries (scalars : Decode.Scalars) (o : Order)
    (path type on object : String) :
    (decodePrivilege scalars o path (.ofMap (entries type on object))).value = ⟨type, on, object⟩ := by
  rw [decodePrivilege_value (regular_entry type on object), privilegeOf, textAt, textAt, textAt,
    entries_get, entries_get, entries_get]
  simp

theorem onClass_inj {conn : Conn} {a : ACL} {g : Grant} {type cls cls' : String}
    (h : onClass conn a g type cls = onClass conn a g type cls') : cls = cls' := by
  unfold onClass at h
  have hlist := congrArg String.toList h
  simp only [String.toList_append, List.append_assoc, List.append_cancel_left_eq] at hlist
  exact String.toList_injective (List.append_cancel_right hlist)

/-- **The syntax of 6.2 keeps its meaning only when the class has the name of the type.**
The privilege is that of the current syntax, and the statement is on the class that was
asked for, exactly then. -/
theorem legacy_kept_iff (scalars : Decode.Scalars) (u : Strings) (o o' : Order)
    (scope type cls : String) :
    (normalizeItem u o (legacy scope type cls) = normalizeItem u o' (current u scope type cls) ↔
      scope ≠ "" ∧ type = cls) ∧
    (scope ≠ "" → ∃ item, normalizeItem u o (legacy scope type cls) = .ok [item] ∧
      ∀ (f : Formatter) (a : ACL) (o₂ : Order) (path owner schema database grantee : String),
        a ∈ builtinACLs → a.name = u.toUpper scope ++ " DEFAULT" → Keyword type →
        let g := grantOf (decodePrivilege scalars o₂ path item).value owner schema database grantee
        (statement f a g = some (onClass f.toConn a g type cls) ↔ type = cls)) := by
  refine ⟨normalizeItem_eq_iff, fun hscope => ⟨_, normalizeItem_legacy hscope type cls, ?_⟩⟩
  intro f a o₂ path owner schema database grantee ha hname htype
  rw [decodePrivilege_entries]
  have hdefault := default_cases ha hname
  have hsent := (defaultTemplate ha hdefault).statement_eq f
    (g := grantOf ⟨type, u.toUpper scope ++ " DEFAULT", type⟩ owner schema database grantee)
    hname.symm hdefault htype htype
  refine ⟨fun h => ?_, fun h => ?_⟩
  · exact onClass_inj (Option.some.inj (hsent.symm.trans h))
  · rw [← h]
    exact hsent

namespace Documented

def upper : Strings :=
  { Ldap.Sample.env.toStrings with
    toUpper := fun s => String.ofList (s.toList.map Char.toUpper) }

def globalDefault : ACL where
  name := "GLOBAL DEFAULT"
  scope := "database"
  grant := "ALTER DEFAULT PRIVILEGES FOR ROLE <owner> GRANT <privilege> ON <object> TO <grantee>;"
  revoke :=
    "ALTER DEFAULT PRIVILEGES FOR ROLE <owner> REVOKE <privilege> ON <object> FROM <grantee>;"

end Documented

open Documented

/-- The example of the documentation. -/
theorem select_on_select :
    normalizeItem upper Order.sorted (legacy "global" "SELECT" "TABLES") ≠
      normalizeItem upper Order.sorted (current upper "global" "SELECT" "TABLES") ∧
    globalDefault ∈ builtinACLs ∧
    ∃ item, normalizeItem upper Order.sorted (legacy "global" "SELECT" "TABLES") = .ok [item] ∧
      ∀ scalars, statement Privileges.Sample.formatter globalDefault (grantOf
          (decodePrivilege scalars Order.sorted "" item).value "ownerrole" "" "app" "readers") =
        some ("ALTER DEFAULT PRIVILEGES FOR ROLE \"ownerrole\" " ++
          "GRANT SELECT ON SELECT TO \"readers\";") := by
  refine ⟨fun h => ?_, by decide +kernel, _, normalizeItem_legacy (by decide) _ _,
    fun scalars => ?_⟩
  · have hsame := (normalizeItem_eq_iff.mp h).2
    exact absurd hsame (by decide)
  · rw [decodePrivilege_entries]
    decide +kernel

end Ldap2pg.Privileges.Legacy
