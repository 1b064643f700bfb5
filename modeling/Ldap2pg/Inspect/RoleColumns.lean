import Ldap2pg.Inspect
import Ldap2pg.Lib.Text
import Ldap2pg.Roles.Catalog

/-! # `internal/role/options.go`: options by column

Which columns the server has, and in which order the query asks for them, is a global
of the program: `ProcessColumns` sets it, and `LoadRow`, `String` and `Diff` read it. Here
it is the argument `InstanceColumns`. `String` and `Diff` write a text for the server;
`readText` is how the server reads such a text, which is ours. -/
namespace Ldap2pg.Inspect.RoleColumns
open Lib Roles

/-- A value of a row, as the driver gives it. -/
inductive Value where
  | bool (b : Bool)
  | int32 (n : Int32)
  | other
  deriving DecidableEq

inductive Panic where
  /-- `instanceColumns.order[order]` -/
  | indexOutOfRange (order : Nat)
  /-- `value.(bool)` or `value.(int32)` -/
  | typeAssertion (value : Value)

/-- `instanceColumns`. -/
structure InstanceColumns where
  availability : Dict Bool := ∅
  order : List String := []

def knownColumns : List String := Column.all.map column

/-- One turn of the loop of `ProcessColumns`. -/
def processColumn (super : Bool) (st : InstanceColumns) (name : String) : InstanceColumns :=
  if !knownColumns.contains name then st
  else if !super && privilegedColumns.contains name then st
  else { availability := st.availability.insert name true, order := st.order ++ [name] }

/-- `ProcessColumns`, which returns the order. It makes a new availability map, and
appends to the order there is. -/
def processColumns (st : InstanceColumns) (columns : List String) (super : Bool) :
    InstanceColumns :=
  columns.foldl (processColumn super)
    { st with availability := Dict.fill id (fun _ => false) ∅ knownColumns }

def getColumnNameByOrder (st : InstanceColumns) (order : Nat) : Except Panic String :=
  match st.order[order]? with
  | some name => .ok name
  | none => .error (.indexOutOfRange order)

def isColumnEnabled (st : InstanceColumns) (name : String) : Bool :=
  match st.availability[name]? with
  | some available => available
  | none => false

/-- The options that are enabled. -/
def enabled (st : InstanceColumns) : Columns := fun c => isColumnEnabled st (column c)

/-- `value.(bool)`. -/
def Value.asBool : Value → Except Panic Bool
  | .bool b => .ok b
  | value => .error (.typeAssertion value)

/-- `value.(int32)`. -/
def Value.asInt32 : Value → Except Panic Int32
  | .int32 n => .ok n
  | value => .error (.typeAssertion value)

/-- The switch of `LoadRow`. -/
def loadColumn (o : Options) (colName : String) (value : Value) : Except Panic Options :=
  match colName with
  | "rolbypassrls" => do return { o with byPassRLS := ← value.asBool }
  | "rolcanlogin" => do return { o with canLogin := ← value.asBool }
  | "rolconnlimit" => do return { o with connLimit := (← value.asInt32).toInt }
  | "rolcreatedb" => do return { o with createDB := ← value.asBool }
  | "rolcreaterole" => do return { o with createRole := ← value.asBool }
  | "rolinherit" => do return { o with inherit := ← value.asBool }
  | "rolreplication" => do return { o with replication := ← value.asBool }
  | "rolsuper" => do return { o with super := ← value.asBool }
  | _ => return o

/-- One turn of the loop of `LoadRow`. -/
def loadValue (st : InstanceColumns) (o : Options) (value : Value × Nat) :
    Except Panic Options := do
  let colName ← getColumnNameByOrder st value.2
  loadColumn o colName value.1

/-- `LoadRow`. -/
def loadRow (st : InstanceColumns) (o : Options) (row : List Value) : Except Panic Options :=
  row.zipIdx.foldlM (loadValue st) o

/-- A clause written to the builder `b`. -/
def writeClause (b : String) (clause : Clause) : String :=
  (if 0 < b.utf8ByteSize then b ++ " " else b) ++ clause.text

/-- `Options.String`. -/
def optionsString (st : InstanceColumns) (o : Options) : String :=
  Column.all.foldl (fun b c =>
    if !isColumnEnabled st (column c) then b else writeClause b (c, o.get c)) ""

/-- `Options.Diff`. -/
def optionsDiff (st : InstanceColumns) (o wanted : Options) : String :=
  Column.all.foldl (fun b c =>
    if !isColumnEnabled st (column c) then b
    else if o.get c ≠ wanted.get c then writeClause b (c, wanted.get c)
    else b) ""

/-! ## The server reads options -/

/-- The clauses that are one word. -/
def flags : List Clause :=
  (Column.all.filter (· ≠ .rolconnlimit)).flatMap fun c => [(c, .bool true), (c, .bool false)]

def readFlag (word : List Char) : Option Clause := flags.find? fun x => x.text.toList = word

def readClauses : List (List Char) → Option (List Clause)
  | [] => some []
  | word :: words =>
    if word = "CONNECTION".toList then
      match words with
      | limit :: number :: words =>
        if limit = "LIMIT".toList then do
          let n ← (String.ofList number).toInt?
          let clauses ← readClauses words
          return (.rolconnlimit, .int n) :: clauses
        else none
      | _ => none
    else do
      let clause ← readFlag word
      let clauses ← readClauses words
      return clause :: clauses

/-- The clauses of a text. -/
def readText (s : String) : Option (List Clause) :=
  readClauses (if s = "" then [] else s.toList.splitOn ' ')

/-- What a text makes of the options of a role. The server refuses an option that
comes twice. -/
def applyText (s : String) (o : Options) : Option Options := do
  let clauses ← readText s
  if (clauses.map Prod.fst).Nodup then some (clauses.foldl Options.set o) else none

/-! ## The columns -/

/-- The columns that `ProcessColumns` keeps. -/
def kept (super : Bool) (name : String) : Bool :=
  knownColumns.contains name && !(!super && privilegedColumns.contains name)

theorem column_mem_known (c : Column) : column c ∈ knownColumns :=
  List.mem_map.mpr ⟨c, c.mem_all, rfl⟩

theorem column_inj {c c' : Column} (h : column c = column c') : c = c' := by
  cases c <;> cases c' <;> first | rfl | exact absurd h (by decide)

theorem processColumn_eq (super : Bool) (st : InstanceColumns) (name : String) :
    processColumn super st name =
      if kept super name then ⟨st.availability.insert name true, st.order ++ [name]⟩ else st := by
  unfold processColumn kept
  cases knownColumns.contains name <;> cases super <;> cases privilegedColumns.contains name <;> rfl

/-- The loop appends the columns it keeps, and makes them available. -/
theorem foldl_processColumn (super : Bool) (columns : List String) (st : InstanceColumns) :
    (columns.foldl (processColumn super) st).order = st.order ++ columns.filter (kept super) ∧
      ∀ name : String, (columns.foldl (processColumn super) st).availability[name]? =
        if name ∈ columns.filter (kept super) then some true else st.availability[name]? := by
  induction columns generalizing st with
  | nil => simp
  | cons name columns ih =>
    rw [List.foldl_cons, processColumn_eq]
    by_cases hkept : kept super name = true
    · rw [if_pos hkept, List.filter_cons_of_pos hkept]
      obtain ⟨horder, havailable⟩ := ih ⟨st.availability.insert name true, st.order ++ [name]⟩
      refine ⟨by rw [horder, List.append_assoc, List.singleton_append], fun other => ?_⟩
      rw [havailable other, Dict.get_insert]
      by_cases hname : name = other
      · simp [hname]
      · simp [hname, Ne.symm hname]
    · rw [if_neg hkept, List.filter_cons_of_neg hkept]
      exact ih st

variable {st : InstanceColumns} {columns : List String} {super : Bool}

/-- The columns after a first call of `ProcessColumns`. -/
def firstCall (columns : List String) (super : Bool) : InstanceColumns :=
  processColumns {} columns super

theorem order_firstCall : (firstCall columns super).order = columns.filter (kept super) := by
  rw [firstCall, processColumns, (foldl_processColumn super columns _).1, List.nil_append]

/-- The columns that are enabled are those that are kept. -/
theorem isColumnEnabled_iff {name : String} :
    isColumnEnabled (processColumns st columns super) name = true ↔
      name ∈ columns.filter (kept super) := by
  unfold isColumnEnabled processColumns
  rw [(foldl_processColumn super columns _).2 name, Dict.get_fill_id]
  by_cases hin : name ∈ columns.filter (kept super)
  · rw [if_pos hin]
    exact iff_of_true rfl hin
  · rw [if_neg hin]
    by_cases hknown : name ∈ knownColumns
    · rw [if_pos hknown]
      exact iff_of_false Bool.false_ne_true hin
    · rw [if_neg hknown, Dict.get_empty]
      exact iff_of_false Bool.false_ne_true hin

/-- What `String` and `Diff` see is what the rest of the run is given. -/
theorem enabled_processColumns :
    enabled (processColumns st columns super) = Inspect.processColumns columns super := by
  funext c
  rw [enabled, Bool.eq_iff_iff, isColumnEnabled_iff, List.mem_filter, kept, Inspect.processColumns]
  simp [column_mem_known c]

theorem enabled_firstCall {c : Column} : enabled (firstCall columns super) c = true ↔
    column c ∈ columns ∧ (super = true ∨ column c ∉ privilegedColumns) := by
  rw [firstCall, enabled_processColumns, Inspect.processColumns]
  cases super <;> simp

/-! ## Rows -/

/-- The option that a value stands for. -/
def Value.option : Value → Option OptionValue
  | .bool b => some (.bool b)
  | .int32 n => some (.int n.toInt)
  | .other => none

/-- The value of `o` in a column. -/
def Gives (o : Options) (name : String) (value : Value) : Prop :=
  ∃ c, column c = name ∧ value.option = some (o.get c)

theorem loadColumn_eq {o r : Options} {c : Column} {value : Value}
    (h : value.option = some (o.get c)) :
    loadColumn r (column c) value = .ok (r.set (c, o.get c)) := by
  cases value with
  | other => cases h
  | bool b =>
    cases c with
    | rolconnlimit => cases h
    | _ => rw [← Option.some.inj h]; rfl
  | int32 n =>
    cases c with
    | rolconnlimit => rw [← Option.some.inj h]; rfl
    | _ => cases h

/-- The values of a row go to the columns of the order. -/
theorem foldlM_loadValue {o : Options} {names : List String} {row : List Value}
    (h : List.Forall₂ (Gives o) names row) : ∀ (before : List String) (r : Options),
    st.order = before ++ names →
    ∃ cs : List Column, cs.map column = names ∧ (row.zipIdx before.length).foldlM (loadValue st) r =
      .ok ((cs.map fun c => (c, o.get c)).foldl Options.set r) := by
  induction h with
  | nil => intro before r _; exact ⟨[], rfl, rfl⟩
  | @cons name value names row hgives _ ih =>
    intro before r horder
    obtain ⟨c, hname, hvalue⟩ := hgives
    obtain ⟨cs, hcs, hload⟩ := ih (before ++ [name]) (r.set (c, o.get c)) (by simp [horder])
    have hget : getColumnNameByOrder st before.length = .ok (column c) := by
      simp [getColumnNameByOrder, horder, hname]
    refine ⟨c :: cs, by simp [hname, hcs], ?_⟩
    rw [List.length_append, List.length_singleton] at hload
    rw [List.zipIdx_cons, List.foldlM_cons, loadValue, hget, ok_bind, loadColumn_eq hvalue, ok_bind,
      hload]
    rfl

/-- **`LoadRow` sets the enabled options and no other.** -/
theorem loadRow_spec {o : Options} {row : List Value}
    (h : List.Forall₂ (Gives o) (firstCall columns super).order row) (r : Options) :
    ∃ r', loadRow (firstCall columns super) r row = .ok r' ∧
      ∀ c, r'.get c = if enabled (firstCall columns super) c then o.get c else r.get c := by
  obtain ⟨cs, hcs, hload⟩ := foldlM_loadValue h [] r rfl
  refine ⟨_, hload, fun c => ?_⟩
  rw [Options.get_foldl_set]
  have hin : c ∈ cs ↔ enabled (firstCall columns super) c = true := by
    rw [enabled, firstCall, isColumnEnabled_iff, ← order_firstCall, ← hcs]
    exact (List.mem_map_of_injective fun _ _ => column_inj).symm
  simp only [hin]

/-! ## Texts -/

theorem writeClause_ne_empty (b : String) (x : Clause) : writeClause b x ≠ "" := by
  simp [writeClause, x.text_ne_empty]

theorem clausesText_cons (x : Clause) {l : List Clause} (hl : l ≠ []) :
    clausesText (x :: l) = x.text ++ " " ++ clausesText l := by
  obtain ⟨y, l, rfl⟩ := List.exists_cons_of_ne_nil hl
  simp [clausesText, String.intercalate_cons_cons, String.append_assoc]

theorem writeClause_append {b : String} (hb : b ≠ "") (x : Clause) :
    writeClause b x = b ++ " " ++ x.text := by
  have hsize : 0 < b.utf8ByteSize :=
    Nat.pos_of_ne_zero fun h => hb (String.utf8ByteSize_eq_zero_iff.mp h)
  rw [writeClause, if_pos hsize]

theorem foldl_writeClause_append {l : List Clause} (hl : l ≠ []) :
    ∀ {b : String}, b ≠ "" → l.foldl writeClause b = b ++ " " ++ clausesText l := by
  induction l with
  | nil => exact absurd rfl hl
  | cons x l ih =>
    intro b hb
    rw [List.foldl_cons]
    by_cases hnil : l = []
    · subst hnil
      simp [writeClause_append hb, clausesText]
    · rw [ih hnil (writeClause_ne_empty b x), writeClause_append hb, clausesText_cons x hnil]
      simp [String.append_assoc]

/-- The builder joins the clauses with blanks. -/
theorem foldl_writeClause (l : List Clause) : l.foldl writeClause "" = clausesText l := by
  cases l with
  | nil => rfl
  | cons x l =>
    have hfirst : writeClause "" x = x.text := by simp [writeClause]
    rw [List.foldl_cons, hfirst]
    by_cases hnil : l = []
    · subst hnil
      simp [clausesText]
    · rw [foldl_writeClause_append hnil x.text_ne_empty, clausesText_cons x hnil]

theorem optionsString_eq (st : InstanceColumns) (o : Options) :
    optionsString st o = clausesText (o.clauses (enabled st)) := by
  rw [← foldl_writeClause, Options.clauses, List.foldl_map, List.foldl_filter, optionsString]
  congr 1
  funext b c
  rw [enabled]
  cases isColumnEnabled st (column c) <;> rfl

theorem optionsDiff_eq (st : InstanceColumns) (o wanted : Options) :
    optionsDiff st o wanted = clausesText (o.diff (enabled st) wanted) := by
  rw [← foldl_writeClause, Options.diff, List.foldl_map, List.foldl_filter, optionsDiff]
  congr 1
  funext b c
  rw [enabled]
  cases isColumnEnabled st (column c) with
  | false => rfl
  | true => simp

/-! ## Texts that are read back -/

/-- The words of a clause. -/
def Clause.words : Clause → List (List Char)
  | (.rolconnlimit, .int n) => ["CONNECTION".toList, "LIMIT".toList, (toString n).toList]
  | x => [x.text.toList]

/-- A clause that `Options` can write. -/
def Written (x : Clause) : Prop := x ∈ flags ∨ ∃ n, x = (.rolconnlimit, .int n)

theorem written_get (o : Options) (c : Column) : Written (c, o.get c) := by
  by_cases hc : c = .rolconnlimit
  · subst hc
    exact .inr ⟨o.connLimit, rfl⟩
  · refine .inl (List.mem_flatMap.mpr ⟨c, by simp [hc, c.mem_all], ?_⟩)
    cases c with
    | rolconnlimit => exact absurd rfl hc
    | _ => simp [Options.get]

theorem words_ne_nil (x : Clause) : Clause.words x ≠ [] := by
  unfold Clause.words
  split <;> simp

theorem words_flag {x : Clause} (h : x ∈ flags) : Clause.words x = [x.text.toList] := by
  revert h x
  decide

theorem text_words (x : Clause) (h : Written x) :
    x.text.toList = [' '].intercalate (Clause.words x) := by
  rcases h with h | ⟨n, rfl⟩
  · rw [words_flag h, List.intercalate_singleton]
  · rw [Clause.text, String.toList_append, String.toList_append]
    show _ = [' '].intercalate ["CONNECTION".toList, "LIMIT".toList, (toString n).toList]
    simp [Column.keyword]

theorem not_mem_toString (n : Int) : ' ' ∉ (toString n).toList := by
  have hdigits : ∀ m : Nat, ' ' ∉ m.repr.toList := fun m hmem => by
    rw [Nat.toList_repr] at hmem
    exact absurd (Nat.isDigit_of_mem_toDigits (by decide) (by decide) hmem) (by decide)
  show ' ' ∉ n.repr.toList
  rw [Int.repr_eq_if]
  split
  · exact hdigits _
  · rw [String.toList_append]
    intro hmem
    rcases List.mem_append.mp hmem with hmem | hmem
    · exact absurd hmem (by decide)
    · exact hdigits _ hmem

theorem not_mem_words {x : Clause} (h : Written x) : ∀ word ∈ Clause.words x, ' ' ∉ word := by
  rcases h with h | ⟨n, rfl⟩
  · revert h x
    decide
  · intro word hword
    have hword : word ∈ ["CONNECTION".toList, "LIMIT".toList, (toString n).toList] := hword
    rcases List.mem_cons.mp hword with rfl | hword
    · decide
    · rcases List.mem_cons.mp hword with rfl | hword
      · decide
      · rw [List.mem_singleton.mp hword]
        exact not_mem_toString n

theorem readClauses_flag {x : Clause} (h : x ∈ flags) (words : List (List Char)) :
    readClauses (Clause.words x ++ words) = (readClauses words).map (x :: ·) := by
  have hflag : ∀ x ∈ flags,
      readFlag x.text.toList = some x ∧ x.text.toList ≠ "CONNECTION".toList := by decide
  obtain ⟨hread, hne⟩ := hflag x h
  rw [words_flag h, List.singleton_append]
  conv_lhs => unfold readClauses
  rw [if_neg hne, hread]
  cases readClauses words <;> rfl

theorem readClauses_limit (n : Int) (words : List (List Char)) :
    readClauses (Clause.words (.rolconnlimit, .int n) ++ words) =
      (readClauses words).map ((.rolconnlimit, .int n) :: ·) := by
  have hn : (String.ofList (toString n).toList).toInt? = some n := by
    rw [String.ofList_toList]
    exact Int.toInt?_repr n
  show readClauses ("CONNECTION".toList :: "LIMIT".toList :: (toString n).toList :: words) = _
  rw [readClauses, if_pos rfl]
  simp only [if_true, hn]
  cases readClauses words <;> rfl

theorem readClauses_words {l : List Clause} (h : ∀ x ∈ l, Written x) :
    readClauses (l.flatMap Clause.words) = some l := by
  induction l with
  | nil => rfl
  | cons x l ih =>
    have hl := ih fun y hy => h y (List.mem_cons_of_mem x hy)
    rw [List.flatMap_cons]
    rcases h x List.mem_cons_self with hx | ⟨n, rfl⟩
    · rw [readClauses_flag hx, hl]
      rfl
    · rw [readClauses_limit, hl]
      rfl

/-- **What is written is read back.** -/
theorem readText_clausesText {l : List Clause} (h : ∀ x ∈ l, Written x) :
    readText (clausesText l) = some l := by
  by_cases hnil : l = []
  · subst hnil
    rfl
  · have hne : l.flatMap Clause.words ≠ [] := by
      obtain ⟨x, l, rfl⟩ := List.exists_cons_of_ne_nil hnil
      simp [words_ne_nil x]
    have htext : (clausesText l).toList = [' '].intercalate (l.flatMap Clause.words) := by
      rw [clausesText, String.toList_intercalate, List.map_map,
        ← Text.intercalate_flatMap _ _ words_ne_nil]
      exact congrArg _ (List.map_congr_left fun x hx => text_words x (h x hx))
    rw [readText, if_neg (mt clausesText_eq_empty.mp hnil), htext,
      List.splitOn_intercalate ' ' ?_ hne, readClauses_words h]
    intro word hword
    obtain ⟨x, hx, hword⟩ := List.mem_flatMap.mp hword
    exact not_mem_words (h x hx) word hword

theorem applyText_clausesText (wanted o : Options) {cs : List Column} (hcs : cs.Nodup) :
    ∃ o', applyText (clausesText (cs.map fun c => (c, wanted.get c))) o = some o' ∧
      ∀ c, o'.get c = if c ∈ cs then wanted.get c else o.get c := by
  have hwritten : ∀ x ∈ cs.map fun c => (c, wanted.get c), Written x := by
    intro x hx
    obtain ⟨c, _, rfl⟩ := List.mem_map.mp hx
    exact written_get wanted c
  have hnodup : ((cs.map fun c => (c, wanted.get c)).map Prod.fst).Nodup := by
    rw [List.map_map]
    simpa [Function.comp_def] using hcs
  refine ⟨_, ?_, fun c => Options.get_foldl_set wanted c cs o⟩
  rw [applyText, readText_clausesText hwritten]
  exact if_pos hnodup

theorem nodup_all : Column.all.Nodup := by decide

/-- **A difference turns the options into the wanted ones**, where they are enabled. -/
theorem applyText_optionsDiff (st : InstanceColumns) (o wanted : Options) :
    ∃ o', applyText (optionsDiff st o wanted) o = some o' ∧
      ∀ c, o'.get c = if enabled st c then wanted.get c else o.get c := by
  obtain ⟨o', happly, hget⟩ := applyText_clausesText wanted o
    (nodup_all.filter fun c => enabled st c && o.get c != wanted.get c)
  rw [optionsDiff_eq]
  refine ⟨o', happly, fun c => ?_⟩
  rw [hget c]
  -- where they agree, either value is the wanted one
  by_cases hsame : o.get c = wanted.get c
  · rw [hsame, ite_self, ite_self]
  · simp [c.mem_all, hsame]

theorem applyText_optionsString (st : InstanceColumns) (wanted o : Options) :
    ∃ o', applyText (optionsString st wanted) o = some o' ∧
      ∀ c, o'.get c = if enabled st c then wanted.get c else o.get c := by
  obtain ⟨o', happly, hget⟩ := applyText_clausesText wanted o (nodup_all.filter (enabled st))
  rw [optionsString_eq]
  refine ⟨o', happly, fun c => ?_⟩
  rw [hget c]
  simp [c.mem_all]

theorem readText_optionsDiff (st : InstanceColumns) (o wanted : Options) :
    ∃ clauses, readText (optionsDiff st o wanted) = some clauses ∧
      ∀ clause ∈ clauses, enabled st clause.1 = true := by
  rw [optionsDiff_eq]
  refine ⟨_, readText_clausesText fun x hx => ?_, fun x hx => (mem_diff.mp hx).1⟩
  obtain ⟨c, _, rfl⟩ := List.mem_map.mp hx
  exact written_get wanted c

/-- **Options are read, compared and written consistently**, for every list of columns
of the server and either privilege level: a row sets the enabled options, in whatever
order the columns come; a difference is empty when the enabled options agree, and
otherwise changes these only; a text gives the enabled options to any role. -/
theorem options_consistent (columns : List String) (super : Bool) :
    (∀ c, enabled (firstCall columns super) c = true ↔
      column c ∈ columns ∧ (super = true ∨ column c ∉ privilegedColumns)) ∧
    (∀ (o r : Options) (row : List Value),
      List.Forall₂ (Gives o) (firstCall columns super).order row →
      ∃ r', loadRow (firstCall columns super) r row = .ok r' ∧
        ∀ c, r'.get c = if enabled (firstCall columns super) c then o.get c else r.get c) ∧
    (∀ o wanted : Options,
      (optionsDiff (firstCall columns super) o wanted = "" ↔
        ∀ c, enabled (firstCall columns super) c = true → o.get c = wanted.get c) ∧
      (∃ clauses, readText (optionsDiff (firstCall columns super) o wanted) = some clauses ∧
        ∀ clause ∈ clauses, enabled (firstCall columns super) clause.1 = true) ∧
      ∃ o', applyText (optionsDiff (firstCall columns super) o wanted) o = some o' ∧
        ∀ c, o'.get c = if enabled (firstCall columns super) c then wanted.get c else o.get c) ∧
    ∀ wanted o : Options,
      ∃ o', applyText (optionsString (firstCall columns super) wanted) o = some o' ∧
        ∀ c, o'.get c = if enabled (firstCall columns super) c then wanted.get c
          else o.get c := by
  refine ⟨fun c => enabled_firstCall, fun o r row h => loadRow_spec h r, fun o wanted => ?_,
    applyText_optionsString _⟩
  refine ⟨?_, readText_optionsDiff _ o wanted, applyText_optionsDiff _ o wanted⟩
  rw [optionsDiff_eq, clausesText_eq_empty, diff_eq_nil]

-- a server with an option of its own, seen by a user who is not a superuser
example : optionsDiff (firstCall (Column.all.map column ++ ["rolcustomopt"]) false)
    { super := true } { connLimit := -1 } = "CONNECTION LIMIT -1" := by decide +kernel

end Ldap2pg.Inspect.RoleColumns
