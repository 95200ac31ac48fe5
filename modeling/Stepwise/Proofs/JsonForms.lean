import Mathlib
import Stepwise.Console
import Stepwise.Proofs.JsonText

/-!
# Forms read back

Each form of data is read back from what its text says, so every lemma here is about
`Json.asWritten` of a form, and the texts come in at the end, once for all forms.

Most forms read back whatever they hold, as long as their integers fit into the words that they are
read as. Values do so even if they are no finite numbers, because those have names of their own.
Expressions do not have such names. A number in an expression that is not finite is written as
`null`, and then the expression is not read at all, nor is any instruction or program around it. So
for them the lemmas say both: what reads back, and that nothing else is read.

## Main definitions

* `Expr.isFinite`, `Instruction.isFinite`, `Compilation.isFinite` — whether all numbers are finite
* `State.Fits`, `Instruction.Fits`, `Compilation.Fits` — whether the integers have 64 bits

## Main results

* `Store.ofJson?_toJson`, `State.ofJson?_asWritten` — stores and states read back
* `Compilation.ofJson?_asWritten` — a compilation reads back exactly if its numbers are finite
* `parse?_text_toJson` — each form is read from its text as it was
-/

namespace Stepwise

/-! ### Taking apart what was put together -/

namespace Json

variable {α : Type}

@[simp] theorem named_nil (name : String) : named [] name = [] := rfl

@[simp] theorem named_cons (n : String) (j : Json) (members : List (String × Json))
    (name : String) :
    named ((n, j) :: members) name =
      if n = name then j :: named members name else named members name := by
  simp only [named, List.filter_cons, beq_iff_eq]
  split <;> rfl

@[simp] theorem named_append (members others : List (String × Json)) (name : String) :
    named (members ++ others) name = named members name ++ named others name := by
  simp only [named, List.filter_append, List.map_append]

@[simp] theorem asMembers_object (members : List (String × Json)) :
    asMembers (object members) = some members := rfl

@[simp] theorem asString_string (s : String) : asString (string s) = some s := rfl

@[simp] theorem asBool_bool (b : Bool) : asBool (bool b) = some b := rfl

/-- Items are taken apart one by one, and all together only if each of them is. -/
theorem asList_asWritten {decode : Json → Option α} {f : α → Json} {p : α → Bool} {as : List α}
    (h : ∀ a ∈ as, decode (f a).asWritten = if p a then some a else none) :
    asList decode (array (as.map f)).asWritten = if as.all p then some as else none := by
  rw [asWritten_array, List.map_map, asList]
  induction as with
  | nil => rfl
  | cons a as ih =>
    have hothers := ih fun b hb => h b (List.mem_cons_of_mem a hb)
    rw [List.map_cons, List.mapM_cons, Function.comp_apply, h a List.mem_cons_self, hothers,
      List.all_cons]
    cases p a <;> cases as.all p <;> rfl

theorem asList_asWritten_some {decode : Json → Option α} {f : α → Json} {as : List α}
    (h : ∀ a ∈ as, decode (f a).asWritten = some a) :
    asList decode (array (as.map f)).asWritten = some as := by
  have hall : (as.all fun _ => true) = true := List.all_eq_true.mpr fun _ _ => rfl
  rw [asList_asWritten (p := fun _ => true) h, hall, if_pos rfl]

/-- A list of readable items is readable. -/
theorem isReadable_array {f : α → Json} {as : List α}
    (h : ∀ a ∈ as, (f a).asWritten.isReadable = true) :
    (array (as.map f)).asWritten.isReadable = true := by
  rw [asWritten_array, List.map_map, isReadable]
  induction as with
  | nil => rfl
  | cons a as ih =>
    rw [List.map_cons, allReadable, Function.comp_apply, h a List.mem_cons_self, Bool.true_and]
    exact ih fun b hb => h b (List.mem_cons_of_mem a hb)

end Json

/-! ### Values and states -/

namespace Double

/-- What is neither finite nor infinite is the one value that is not a number. -/
theorem eq_nan_of_isNaN {x : Float} (h : x.isNaN = true) : x = nan := by
  have hnan : nan = Float.nan := by decide +kernel
  rw [Float.isNaN_eq_decide_eq_nan, decide_eq_true_eq] at h
  rw [h, hnan]

theorem magnitudeBits_of_isInfinite {x : Float} (h : x.isFinite = false) (hnan : x.isNaN = false) :
    magnitudeBits x = infinityBits := by
  have hfinite := mt isFinite_iff.mpr (Bool.eq_false_iff.mp h)
  have hnumber := mt isNaN_iff.mpr (Bool.eq_false_iff.mp hnan)
  omega

end Double

namespace Value

/-- The name of a double without numeral stands for it. -/
theorem ofSpecialName?_specialName {x : Float} (h : x.isFinite = false) :
    ofSpecialName? (specialName x) = some x := by
  rw [specialName]
  split
  case isTrue hnan =>
    rw [Double.eq_nan_of_isNaN hnan]
    decide
  case isFalse hnan =>
    have hself := Double.ofSignBits_magnitudeBits x
    rw [Double.magnitudeBits_of_isInfinite h (Bool.eq_false_iff.mpr hnan)] at hself
    split
    case isTrue hnegative =>
      rw [hnegative] at hself
      exact congrArg some hself
    case isFalse hnegative =>
      rw [Bool.eq_false_iff.mpr hnegative] at hself
      exact congrArg some hself

theorem asWritten_toJson (v : Value) : v.toJson.asWritten = v.toJson := by
  cases v with
  | number x =>
    rw [toJson]
    split
    case isTrue hx => exact Json.asWritten_double hx
    case isFalse => simp
  | text s => exact Json.asWritten_string s

theorem ofJson?_toJson (v : Value) : ofJson? v.toJson = some v := by
  cases v with
  | number x =>
    rw [toJson]
    split
    case isTrue => rfl
    case isFalse hx =>
      have hname := ofSpecialName?_specialName (Bool.eq_false_iff.mpr hx)
      simp [ofJson?, Json.whole, Json.isReadable, Json.allMembersReadable, ofReadable?,
        Json.required, Json.asName, hname]
  | text s => rfl

end Value

namespace Store

theorem asWritten_toJson (s : Store) : s.toJson.asWritten = s.toJson := by
  rw [toJson, Json.asWritten_object, List.map_map]
  exact congrArg Json.object
    (List.map_congr_left fun b _ => congrArg (Prod.mk b.1) b.2.asWritten_toJson)

/-- Assignments to names in increasing order are values of their names. -/
theorem get?_foldl_insert {bindings : List (String × Value)} (h : bindings.Pairwise (·.1 < ·.1))
    (s : Store) (name : String) :
    (bindings.foldl (fun s b => s.insert b.1 b.2) s).get? name =
      (bindings.lookup name).or (s.get? name) := by
  induction bindings generalizing s with
  | nil => rfl
  | cons b bindings ih =>
    obtain ⟨hlt, hrest⟩ := List.pairwise_cons.mp h
    rw [List.foldl_cons, ih hrest, get?_insert, lookup_cons]
    split
    case isTrue heq =>
      rw [heq, lookup_eq_none_of_lt hlt]
      rfl
    case isFalse => rfl

/-- A store is the store of its own bindings. -/
theorem ofList_bindings (s : Store) : ofList s.bindings = s := by
  refine ext_get? fun name => ?_
  rw [ofList, get?_foldl_insert s.sorted, get?_empty, Option.or_none, get?]

theorem ofJson?_toJson (s : Store) : ofJson? s.toJson = some s := by
  have hmembers : (s.bindings.map fun b => (b.1, b.2.toJson)).mapM
      (fun m => (Value.ofJson? m.2).map fun v => (m.1, v)) = some s.bindings := by
    induction s.bindings with
    | nil => rfl
    | cons b bindings ih =>
      rw [List.map_cons, List.mapM_cons, ih, Value.ofJson?_toJson]
      rfl
  rw [toJson, ofJson?]
  simp only [Json.asMembers, bind, Option.bind_some, hmembers, ofList_bindings]

end Store

namespace Json

/-- A number of 64 bits is read as it was written. -/
theorem asWord_asWritten {n : Nat} (h : n < UInt64.size) :
    asWord (int n).asWritten = some n := by
  rw [asWritten_natCast h, asWord, asNatBelow, Int.toNat_natCast,
    if_pos ⟨Int.natCast_nonneg n, h⟩]

end Json

namespace State

/-- The numbers of a state have 64 bits. -/
structure Fits (s : State) : Prop where
  pc : s.pc < UInt64.size
  stack : ∀ n ∈ s.stack, n < UInt64.size

theorem ofJson?_asWritten {s : State} (h : s.Fits) : ofJson? s.toJson.asWritten = some s := by
  have hstack : Json.asList Json.asWord
      (Json.array (s.stack.reverse.map fun (n : Nat) => .int n)).asWritten =
      some s.stack.reverse :=
    Json.asList_asWritten_some fun n hn =>
      Json.asWord_asWritten (h.stack n (List.mem_reverse.mp hn))
  rw [List.map_reverse] at hstack
  have hstore : Store.ofJson? s.store.toJson.asWritten = some s.store := by
    rw [Store.asWritten_toJson, Store.ofJson?_toJson]
  simp [toJson, ofJson?, Json.required, Json.asWord_asWritten h.pc, hstore, hstack]

end State

/-! ### Tokens and diagnostics -/

namespace Span

/-- The ends of a span have 64 bits. -/
structure Fits (s : Span) : Prop where
  start : s.start < UInt64.size
  stop : s.stop < UInt64.size

theorem ofJson?_asWritten {s : Span} (h : s.Fits) : ofJson? s.toJson.asWritten = some s := by
  simp [toJson, ofJson?, Json.required, Json.asWord_asWritten h.start, Json.asWord_asWritten h.stop]

end Span

namespace Token

theorem Kind.ofJson?_name (k : Kind) : ofJson? (.string k.name) = some k := Kind.ofName?_name k

theorem ofJson?_asWritten {t : Token} (h : t.span.Fits) : ofJson? t.toJson.asWritten = some t := by
  simp [toJson, ofJson?, Json.required, Kind.ofJson?_name, Span.ofJson?_asWritten h]

end Token

theorem Severity.ofJson?_name (v : Severity) : ofJson? (.string v.name) = some v :=
  Severity.ofName?_name v

namespace Diagnostic

/-- The offset of a diagnostic, if it has one, has 64 bits. -/
def Fits (d : Diagnostic) : Prop := ∀ offset ∈ d.offset, offset < UInt64.size

theorem codeOfJson?_toNat (code : UInt16) :
    codeOfJson? (Json.int code.toNat).asWritten = some code := by
  have hcode : code.toNat < UInt16.size := code.toNat_lt
  have hword : code.toNat < UInt64.size := Nat.lt_trans hcode (by decide)
  rw [Json.asWritten_natCast hword, codeOfJson?, Json.asNatBelow, Int.toNat_natCast,
    if_pos ⟨Int.natCast_nonneg _, hcode⟩, Option.map_some, UInt16.ofNat_toNat]

theorem ofJson?_asWritten {d : Diagnostic} (h : d.Fits) :
    ofJson? d.toJson.asWritten = some d := by
  obtain ⟨code, severity, message, offset⟩ := d
  cases offset with
  | none =>
    simp [toJson, ofJson?, Json.required, Json.optional, codeOfJson?_toNat, Severity.ofJson?_name]
  | some offset =>
    have hoffset := Json.asWord_asWritten (h offset rfl)
    rw [Json.asWritten_natCast (h offset rfl)] at hoffset
    simp [toJson, ofJson?, Json.required, Json.optional, codeOfJson?_toNat, Severity.ofJson?_name,
      Json.asWritten_natCast (h offset rfl), Json.asNullable, hoffset]

end Diagnostic

/-! ### Expressions and programs -/

theorem Operator.ofInnerJson?_name (op : Operator) :
    ofInnerJson? (.string op.name) = some op := ofName?_name op

namespace Expr

/-- Whether all numbers in an expression are finite. -/
def isFinite : Expr → Bool
  | number x => x.isFinite
  | text _ => true
  | name _ => true
  | binary _ left right => left.isFinite && right.isFinite

theorem isReadable_asWritten_toJson (e : Expr) : e.toJson.asWritten.isReadable = true := by
  induction e with
  | number x =>
    cases hx : x.isFinite with
    | true => simp [toJson, Json.asWritten_double hx, Json.isReadable, Json.allMembersReadable]
    | false =>
      simp [toJson, Json.asWritten_double_of_not_isFinite hx, Json.isReadable,
        Json.allMembersReadable]
  | text s => simp [toJson, Json.isReadable, Json.allMembersReadable]
  | name s => simp [toJson, Json.isReadable, Json.allMembersReadable]
  | binary op left right hleft hright =>
    simp [toJson, Json.isReadable, Json.allMembersReadable, hleft, hright]

theorem Kind.ofJson?_label (k : Kind) : ofJson? (.string k.label) = some k := by
  cases k <;> rfl

theorem Kind.ofInnerJson?_label (k : Kind) : ofInnerJson? (.string k.label) = some k :=
  Kind.ofJson?_label k

theorem exists_eq_succ_of_nesting_le {e : Expr} {depth : Nat} (h : e.toJson.nesting ≤ depth) :
    ∃ inner, depth = inner + 1 := by
  have hpos : 0 < e.toJson.nesting := by cases e <;> exact Nat.succ_pos _
  exact Nat.exists_eq_succ_of_ne_zero (Nat.ne_of_gt (Nat.lt_of_lt_of_le hpos h))

/-- An expression reads back exactly if all its numbers are finite: elsewhere the text has `null`,
which is no double. -/
theorem ofMembers?_asWritten (e : Expr) {kindOf : Json → Option Kind}
    (hkind : ∀ k : Kind, kindOf (.string k.label) = some k) {depth : Nat}
    (hdepth : e.toJson.nesting ≤ depth) :
    e.toJson.asWritten.asMembers.bind (ofMembers? kindOf depth) =
      if e.isFinite then some e else none := by
  obtain ⟨inner, rfl⟩ := exists_eq_succ_of_nesting_le hdepth
  induction e generalizing kindOf inner with
  | number x =>
    cases hx : x.isFinite with
    | true =>
      simp [toJson, ofMembers?, Json.required, hkind, isFinite, hx, Json.asWritten_double,
        Json.asDouble]
    | false =>
      simp [toJson, ofMembers?, Json.required, hkind, isFinite, hx,
        Json.asWritten_double_of_not_isFinite, Json.asDouble]
  | text s => simp [toJson, ofMembers?, Json.required, hkind, isFinite]
  | name s => simp [toJson, ofMembers?, Json.required, hkind, isFinite]
  | binary op left right hleft hright =>
    simp only [toJson, Json.nesting, Json.nestingOfMembers] at hdepth
    have hleftDepth : left.toJson.nesting ≤ inner := by omega
    have hrightDepth : right.toJson.nesting ≤ inner := by omega
    obtain ⟨inner, rfl⟩ := exists_eq_succ_of_nesting_le hleftDepth
    have hl := hleft Kind.ofInnerJson?_label inner hleftDepth
    have hr := hright Kind.ofInnerJson?_label inner hrightDepth
    simp only [toJson, Json.asWritten_object, List.map_cons, List.map_nil, Json.asWritten_string,
      Json.asMembers_object, Option.bind_some]
    rw [ofMembers?]
    simp only [Json.required, Json.named_cons, Json.named_nil, String.reduceEq, if_true, if_false,
      hkind, bind, Option.bind_some, Operator.ofInnerJson?_name, hl, hr]
    cases hlf : left.isFinite <;> cases hrf : right.isFinite <;> simp [isFinite, hlf, hrf]

/-- What is written of an expression is readable, also where it is not the expression. -/
theorem ofInnerJson?_asWritten (e : Expr) :
    ofInnerJson? e.toJson.asWritten = if e.isFinite then some e else none :=
  ofMembers?_asWritten e Kind.ofInnerJson?_label (Json.nesting_asWritten _).ge

theorem ofJson?_asWritten (e : Expr) :
    ofJson? e.toJson.asWritten = if e.isFinite then some e else none := by
  rw [ofJson?, Json.whole, if_pos e.isReadable_asWritten_toJson]
  exact ofMembers?_asWritten e Kind.ofJson?_label (Json.nesting_asWritten _).ge

end Expr

namespace Instruction

/-- Whether all numbers in the expressions of an instruction are finite. -/
def isFinite : Instruction → Bool
  | loop condition _ => condition.isFinite
  | loopEnd => true
  | assign _ value => value.isFinite
  | write args => args.all Expr.isFinite

/-- The index of the end of a loop has 64 bits. -/
def Fits : Instruction → Prop
  | loop _ stop => stop < UInt64.size
  | _ => True

theorem isReadable_asWritten_toJson {i : Instruction} (h : i.Fits) :
    i.toJson.asWritten.isReadable = true := by
  cases i with
  | loop condition stop =>
    simp [toJson, Json.isReadable, Json.allMembersReadable, condition.isReadable_asWritten_toJson,
      Json.asWritten_natCast h]
  | loopEnd => simp [toJson, Json.isReadable, Json.allMembersReadable]
  | assign target value =>
    simp [toJson, Json.isReadable, Json.allMembersReadable, value.isReadable_asWritten_toJson]
  | write args =>
    have hargs : (Json.array (args.map Expr.toJson)).asWritten.isReadable = true :=
      Json.isReadable_array fun e _ => e.isReadable_asWritten_toJson
    simp [toJson, Json.isReadable, Json.allMembersReadable, hargs]

theorem ofJson?_asWritten {i : Instruction} (h : i.Fits) :
    ofJson? i.toJson.asWritten = if i.isFinite then some i else none := by
  rw [ofJson?, Json.whole, if_pos (isReadable_asWritten_toJson h)]
  cases i with
  | loop condition stop =>
    cases hc : condition.isFinite <;>
      simp [toJson, ofReadable?, Json.required, Expr.ofInnerJson?_asWritten, hc, isFinite,
        Json.asWord_asWritten h]
  | loopEnd => simp [toJson, ofReadable?, Json.required, isFinite]
  | assign target value =>
    cases hv : value.isFinite <;>
      simp [toJson, ofReadable?, Json.required, Expr.ofInnerJson?_asWritten, hv, isFinite]
  | write args =>
    have hargs : Json.asList Expr.ofInnerJson? (Json.array (args.map Expr.toJson)).asWritten =
        if args.all Expr.isFinite then some args else none :=
      Json.asList_asWritten fun e _ => e.ofInnerJson?_asWritten
    cases ha : args.all Expr.isFinite <;> rw [ha] at hargs <;>
      simp [toJson, ofReadable?, Json.required, hargs, ha, isFinite]

end Instruction

namespace Program

theorem ofJson?_asWritten {program : Program} (h : ∀ i ∈ program, i.Fits) :
    Json.asNullable ofJson? program.toJson.asWritten =
      if program.all (·.isFinite) then some (some program) else none := by
  have hread : ofJson? program.toJson.asWritten =
      if program.all (·.isFinite) then some program else none :=
    Json.asList_asWritten fun i hi => Instruction.ofJson?_asWritten (h i hi)
  have hnullable : Json.asNullable ofJson? program.toJson.asWritten =
      (ofJson? program.toJson.asWritten).map some := by
    rw [toJson, Json.asWritten_array]
    rfl
  rw [hnullable, hread]
  split <;> rfl

end Program

namespace Compilation

/-- Whether all numbers in the program are finite, if there is a program. -/
def isFinite (c : Compilation) : Bool := c.program.all fun program => program.all (·.isFinite)

/-- The offsets of the diagnostics and the indices in the program have 64 bits. -/
structure Fits (c : Compilation) : Prop where
  diagnostics : ∀ d ∈ c.diagnostics, d.Fits
  notes : ∀ d ∈ c.notes, d.Fits
  program : ∀ program ∈ c.program, ∀ i ∈ program, i.Fits

/-- A compilation reads back exactly if all numbers in its program are finite. -/
theorem ofJson?_asWritten {c : Compilation} (h : c.Fits) :
    ofJson? c.toJson.asWritten = if c.isFinite then some c else none := by
  obtain ⟨success, diagnostics, notes, report, program⟩ := c
  have hdiagnostics := Json.asList_asWritten_some fun d hd =>
    Diagnostic.ofJson?_asWritten (h.diagnostics d hd)
  have hnotes := Json.asList_asWritten_some fun d hd => Diagnostic.ofJson?_asWritten (h.notes d hd)
  have hreport : Json.asList Json.asString (Json.array (report.map .string)).asWritten =
      some report := Json.asList_asWritten_some fun s _ => by simp
  cases program with
  | none =>
    by_cases hnone : notes = [] <;>
      simp [toJson, ofJson?, Json.required, Json.optional, hdiagnostics, hnotes, hreport, hnone,
        isFinite]
  | some program =>
    have hprogram := Program.ofJson?_asWritten (h.program program rfl)
    by_cases hnone : notes = [] <;> cases hp : program.all (·.isFinite) <;> rw [hp] at hprogram <;>
      simp [toJson, ofJson?, Json.required, Json.optional, hdiagnostics, hnotes, hreport, hnone,
        hprogram, hp, isFinite]

end Compilation

/-! ### Texts -/

namespace Json

theorem nestingOfMembers_le {members : List (String × Json)} {n : Nat}
    (h : ∀ m ∈ members, m.2.nesting ≤ n) : nestingOfMembers members ≤ n := by
  induction members with
  | nil => exact Nat.zero_le n
  | cons m members ih =>
    rw [nestingOfMembers]
    exact Nat.max_le.mpr ⟨h m List.mem_cons_self,
      ih fun m' hm => h m' (List.mem_cons_of_mem m hm)⟩

theorem nestingOfItems_le {items : List Json} {n : Nat} (h : ∀ j ∈ items, j.nesting ≤ n) :
    nestingOfItems items ≤ n := by
  induction items with
  | nil => exact Nat.zero_le n
  | cons j items ih =>
    rw [nestingOfItems]
    exact Nat.max_le.mpr ⟨h j List.mem_cons_self, ih fun k hk => h k (List.mem_cons_of_mem j hk)⟩

end Json

theorem Value.nesting_toJson_le (v : Value) : v.toJson.nesting ≤ 1 := by
  cases v with
  | number x =>
    rw [toJson]
    split
    · exact Nat.zero_le 1
    · exact Nat.le_refl 1
  | text s => exact Nat.zero_le 1

theorem State.nesting_toJson_le (s : State) : s.toJson.nesting ≤ 3 := by
  have hstore : s.store.toJson.nesting ≤ 2 :=
    Nat.succ_le_succ (Json.nestingOfMembers_le (List.forall_mem_map.mpr
      fun b _ => b.2.nesting_toJson_le))
  have hstack : Json.nestingOfItems (s.stack.reverse.map fun (n : Nat) => .int n) ≤ 0 :=
    Json.nestingOfItems_le (List.forall_mem_map.mpr fun n _ => Nat.le_refl 0)
  simp only [toJson, Json.nesting, Json.nestingOfMembers]
  omega

theorem Token.nesting_toJson (t : Token) : t.toJson.nesting = 2 := rfl

theorem Diagnostic.nesting_toJson (d : Diagnostic) : d.toJson.nesting = 1 := by
  obtain ⟨code, severity, message, offset⟩ := d
  cases offset <;> rfl

end Stepwise
