import Stepwise.Proofs.Agreement
import Stepwise.Proofs.Classification
import Stepwise.Proofs.Display
import Stepwise.Proofs.Matching

/-!
# What every program of a text is like

The reader does not rely on the tokens having been checked. It makes a program of any text, and of
most texts that program is not what anybody meant: operands are zero where there are none, they are
given up below a certain depth, and reading goes on in the middle of a statement. Still there is
something that holds of the program of every text, because the reader puts nothing into an
expression but zeros and single tokens, and the kind of a token of a text says what its lexeme is.

So names are names, and not words of the language, texts have no quote in them, and numbers have no
sign, although they may be infinite. An expression joins its operands by arithmetic operators only.
There is one place in the reader where another operator can come from, which is the token between
the two sides of a condition.

## Main definitions

* `Expr.IsArithmetic`, `Expr.IsTest` — expressions and conditions that a text can have
* `Reading.Yields` — a reader whose values have a property, whatever tokens of a text it reads
* `Program.IsWellFormed` — all of its instructions are like that, and its loops are closed

## Main results

* `Expr.yields_expression`, `Expr.yields_condition` — what is read is arithmetic
* `Clause.isWellFormed_of_mem_ofTokens` — so are the clauses of the tokens of a text
* `Program.isWellFormed_ofTokens_scan` — the program of a text is well formed
-/

namespace Stepwise

open Reading Token

/-! ### Numbers -/

namespace Double

/-- The numbers without a sign, among them infinity, but not minus zero. -/
structure IsUnsigned (x : Float) : Prop where
  nonneg : isNegative x = false
  isNumber : x.isNaN = false

theorem isUnsigned_zero : IsUnsigned 0 := ⟨by decide, by decide⟩

section

open Float.Model Float.Model.UnpackedFloat

/-- The patterns up to that of infinity are patterns of doubles. Above it there are many patterns of
what is not a number, and only one of them is kept. -/
theorem valid_of_le {word : UInt64} (h : word.toNat ≤ infinityBits) :
    Format.binary64.Valid word.toBitVec := by
  refine ⟨fun hexponent hmantissa => absurd ?_ hmantissa⟩
  rw [unpackExponent_def, ← BitVec.toNat_inj, BitVec.extractLsb'_toNat,
    Nat.shiftRight_eq_div_pow] at hexponent
  have hfull : word.toNat / 2 ^ 52 % 2 ^ 11 = 2047 := hexponent
  rw [unpackMantissa_def, ← BitVec.toNat_inj, BitVec.extractLsb'_toNat, Nat.shiftRight_eq_div_pow]
  show word.toNat / 2 ^ 0 % 2 ^ 52 = 0
  rw [infinityBits] at h
  omega

theorem toBits_ofBits {word : UInt64} (h : word.toNat ≤ infinityBits) :
    (Float.ofBits word).toBits = word :=
  congrArg Float.toBits (Float.ofBits_toBits ⟨⟨word, valid_of_le h⟩⟩)

end

theorem toNat_toBits_ofSignBits {bits : Nat} (h : bits ≤ infinityBits) :
    (ofSignBits false bits).toBits.toNat = bits := by
  have hword : (UInt64.ofNat bits).toNat = bits := by
    rw [infinityBits] at h
    rw [UInt64.toNat_ofNat']
    omega
  rw [ofSignBits, if_neg Bool.false_ne_true, toBits_ofBits (by rwa [hword]), hword]

theorem isUnsigned_ofSignBits {bits : Nat} (h : bits ≤ infinityBits) :
    IsUnsigned (ofSignBits false bits) := by
  have hbits := toNat_toBits_ofSignBits h
  have hsmall : bits < signBit := Nat.lt_of_le_of_lt h (by decide)
  constructor
  · rw [isNegative, hbits]
    exact decide_eq_false (Nat.not_le.mpr hsmall)
  · rw [Bool.eq_false_iff, Ne, isNaN_iff, magnitudeBits, hbits, Nat.mod_eq_of_lt hsmall]
    exact Nat.not_lt.mpr h

end Double

/-- A numeral of the language has no sign, and neither has its number. -/
theorem Numeral.Plain.exists_read? {whole fraction text : List Char}
    (h : Plain whole fraction text) : ∃ x, Numeral.read? text = some x ∧ Double.IsUnsigned x :=
  ⟨_, h.read?, Double.isUnsigned_ofSignBits (Decimal.nearestBits_le ..)⟩

/-! ### Expressions -/

namespace Expr

/-- A tree of arithmetic operators over numbers without a sign, texts without a quote, and names. -/
inductive IsArithmetic : Expr → Prop where
  | number {x : Float} : Double.IsUnsigned x → IsArithmetic (.number x)
  | text {s : String} : '"' ∉ s.toList → IsArithmetic (.text s)
  | name {s : String} : IsName s → IsArithmetic (.name s)
  | binary {op : Operator} {left right : Expr} :
    op ∈ [.add, .sub, .mul, .div] → IsArithmetic left → IsArithmetic right →
      IsArithmetic (.binary op left right)

/-- An arithmetic expression, or two with any operator between them. -/
inductive IsTest : Expr → Prop where
  | arithmetic {e : Expr} : IsArithmetic e → IsTest e
  | binary {op : Operator} {left right : Expr} :
    IsArithmetic left → IsArithmetic right → IsTest (.binary op left right)

theorem isArithmetic_zero : IsArithmetic zero := .number Double.isUnsigned_zero

theorem IsArithmetic.negate {e : Expr} (h : IsArithmetic e) : IsArithmetic e.negate :=
  .binary (by decide) isArithmetic_zero h

end Expr

namespace Token

variable {t : Token}

/-- An identifier that is not a word of a loop is a name. -/
theorem IsClassified.isName (hc : t.IsClassified) (hkind : t.kind = .identifier)
    (hloop : t.isLoopWord = false) : IsName t.lexeme := by
  have hlexeme : Kind.ofLexeme t.lexeme = .identifier := hc ▸ hkind
  have hdescribes : Kind.identifier.Describes t.lexeme := hlexeme ▸ Kind.describes_ofLexeme _
  have hne : ∀ words : List String,
      (words.all fun s => Kind.ofLexeme s != .identifier) = true → t.lexeme ∉ words := by
    intro words hall hmem
    exact bne_iff_ne.mp (List.all_eq_true.mp hall _ hmem) hlexeme
  have hloopWord : t.lexeme ∉ ["while", "end-while"] := by
    intro hmem
    refine Bool.eq_false_iff.mp hloop (isLoopWord_iff.mpr ?_)
    rw [isWord_iff, isWord_iff]
    simpa [hkind] using hmem
  refine ⟨hdescribes.resolve_right fun hhyphen => ?_, ⟨hne _ (by decide), hne _ (by decide)⟩,
    hloopWord⟩
  -- One of the two words with a hyphen is a keyword, the other a word of a loop.
  have hwords : t.lexeme = "end-if" ∨ t.lexeme = "end-while" := by
    simp only [hyphenated, List.mem_cons, List.not_mem_nil, or_false] at hhyphen
    exact hhyphen.imp (fun h => String.toList_inj.mp h) (fun h => String.toList_inj.mp h)
  rcases hwords with hif | hwhile
  · refine hne keywords (by decide) ?_
    rw [hif]
    decide
  · refine hloopWord ?_
    rw [hwhile]
    decide

/-- A token of a text that is an operand is an arithmetic expression. -/
theorem IsClassified.isArithmetic {e : Expr} (hc : t.IsClassified) (h : t.leaf? = some e) :
    e.IsArithmetic := by
  have hdescribes : t.kind.Describes t.lexeme := by
    rw [hc]
    exact Kind.describes_ofLexeme t.lexeme
  unfold Token.leaf? at h
  split at h
  case h_1 hkind =>
    cases h
    rw [hkind] at hdescribes
    obtain ⟨whole, fraction, hplain⟩ := hdescribes
    obtain ⟨x, hread, hx⟩ := hplain.exists_read?
    rw [Expr.literal, hread]
    exact .number hx
  case h_2 hkind =>
    split at h
    · cases h
    · next hloop =>
      cases h
      exact .name (hc.isName hkind (Bool.eq_false_iff.mpr hloop))
  case h_3 hkind =>
    cases h
    rw [hkind] at hdescribes
    obtain ⟨inner, hinner, hlexeme⟩ := hdescribes
    have hunquote : Expr.unquote t.lexeme = String.ofList inner := by
      rw [Expr.unquote, hlexeme]
      simp
    rw [hunquote]
    exact .text (by rwa [String.toList_ofList])
  case h_4 => cases h

end Token

/-! ### Readers of tokens of a text -/

namespace Reading

variable {α β : Type} {P : α → Prop} {Q : β → Prop} {tokens : List Token}

/-- What the reader reads from tokens of a text satisfies `P`. -/
def Yields (P : α → Prop) (r : Reader α) : Prop :=
  ∀ ts, (∀ t ∈ ts, t.IsClassified) → P (r ts).value

/-- The tokens that a reading leaves are tokens of a text. -/
theorem isClassified_of_mem_rest (r : Reading α tokens) (hc : ∀ t ∈ tokens, t.IsClassified) :
    ∀ t ∈ r.rest, t.IsClassified :=
  fun t ht => hc t (r.rest_suffix.subset ht)

theorem Yields.andThen {r : Reader α} (h : Yields P r) {next : α → Reader β}
    (hnext : ∀ value, P value → Yields Q (next value)) :
    Yields Q fun ts => (r ts).andThen next := by
  intro ts hc
  exact hnext _ (h ts hc) _ (isClassified_of_mem_rest _ hc)

theorem Yields.map {r : Reader α} (h : Yields P r) {f : α → β}
    (hf : ∀ value, P value → Q (f value)) :
    Yields Q fun ts => (r ts).map f :=
  fun ts hc => hf _ (h ts hc)

end Reading

namespace Expr

variable {operators : List Operator} {item grouped negated : Reader Expr}

theorem mem_of_operatorAmong? {t : Token} {op : Operator}
    (h : operatorAmong? operators t = some op) : op ∈ operators := by
  rw [operatorAmong?, if_pos (kind_of_operatorAmong? h), Option.filter_eq_some_iff,
    List.contains_iff_mem] at h
  exact h.2

theorem yields_chain (hoperators : operators ⊆ [.add, .sub, .mul, .div])
    (hitem : Yields IsArithmetic item) {left : Expr} (hleft : IsArithmetic left) :
    Yields IsArithmetic (chain operators item left) := by
  intro ts hc
  induction left, ts using chain_induction operators item with
  | nil left =>
    rw [value_chain_nil]
    exact hleft
  | stop left t ts hop =>
    rw [value_chain_of_none hop]
    exact hleft
  | operator left t ts op hop ih =>
    have hbehind := (List.forall_mem_cons.mp hc).2
    rw [value_chain_of_some hop]
    exact ih (.binary (hoperators (mem_of_operatorAmong? hop)) hleft (hitem ts hbehind))
      (isClassified_of_mem_rest _ hbehind)

theorem yields_sum (hitem : Yields IsArithmetic item) : Yields IsArithmetic (sum item) := by
  have hchained : ∀ {operators : List Operator} {item : Reader Expr},
      operators ⊆ [.add, .sub, .mul, .div] → Yields IsArithmetic item →
        Yields IsArithmetic (chained operators item) :=
    fun hoperators hitem => hitem.andThen fun _ => yields_chain hoperators hitem
  exact hchained (by decide) (hchained (by decide) hitem)

theorem yields_operandWith (hgrouped : Yields IsArithmetic grouped)
    (hnegated : Yields IsArithmetic negated) :
    Yields IsArithmetic (operandWith grouped negated) := by
  intro ts hc
  cases ts with
  | nil => exact isArithmetic_zero
  | cons t ts =>
    obtain ⟨ht, hts⟩ := List.forall_mem_cons.mp hc
    show IsArithmetic (operandWith grouped negated (t :: ts)).pair.1
    cases hleaf : t.leaf? with
    | some e =>
      rw [pair_operandWith_of_leaf hleaf]
      exact ht.isArithmetic hleaf
    | none =>
      by_cases hleft : t.isParen "(" = true
      · rw [operandWith_of_left hleft]
        exact hgrouped ts hts
      by_cases hminus : t.kind = .arithmetic ∧ t.lexeme = "-"
      · rw [operandWith_of_minus hminus]
        exact hnegated ts hts
      rw [pair_operandWith_of_none hleaf hleft hminus]
      exact isArithmetic_zero

theorem yields_operand (depth : Nat) : Yields IsArithmetic (operand depth) := by
  have hzero : Yields IsArithmetic (stay zero) := fun _ _ => isArithmetic_zero
  induction depth with
  | zero => exact yields_operandWith hzero hzero
  | succ depth ih =>
    refine yields_operandWith ((yields_sum ih).andThen fun e he ts _ => ?_)
      (ih.map fun _ => .negate)
    rw [value_closed]
    exact he

/-- **Expressions are arithmetic.** -/
theorem yields_expression : Yields IsArithmetic expression := yields_sum (yields_operand maxDepth)

/-- **Conditions are arithmetic below their root.** -/
theorem yields_condition : Yields IsTest condition := by
  refine yields_expression.andThen fun left hleft ts hc => ?_
  cases ts with
  | nil => exact .arithmetic hleft
  | cons t ts =>
    have hright := yields_expression ts (List.forall_mem_cons.mp hc).2
    dsimp only
    split
    · rw [value_behind, value_map]
      split
      · exact .binary hleft hright
      · exact .arithmetic isArithmetic_zero
    · exact .arithmetic hleft

end Expr

/-! ### Clauses -/

namespace Clause

/-- A clause that a text can have. -/
def IsWellFormed : Clause → Prop
  | .loop condition => condition.IsTest
  | .loopEnd => True
  | .assign target value => IsName target ∧ value.IsArithmetic
  | .write args => ∀ e ∈ args, e.IsArithmetic

theorem yields_header : Yields Expr.IsTest (header Int) := by
  intro ts hc
  cases ts with
  | nil => exact Expr.yields_condition [] hc
  | cons t ts =>
    rw [header]
    split
    · exact Expr.yields_condition ts (List.forall_mem_cons.mp hc).2
    · exact Expr.yields_condition (t :: ts) hc

theorem yields_assignment : Yields Expr.IsArithmetic assignment :=
  Expr.yields_expression.andThen fun _ he _ _ => he

theorem yields_arguments : Yields (fun args => ∀ e ∈ args, e.IsArithmetic) arguments := by
  intro ts hc
  show ∀ e ∈ (arguments ts).pair.1, e.IsArithmetic
  induction ts using arguments_induction with
  | nil =>
    rw [arguments]
    exact fun e he => by cases he
  | close t ts hright =>
    rw [pair_arguments_of_right hright]
    exact fun e he => by cases he
  | comma t ts hright hcomma ih =>
    rw [pair_arguments_of_comma hcomma]
    exact ih (List.forall_mem_cons.mp hc).2
  | stop t ts hright hcomma hends =>
    rw [arguments, if_neg hright, if_neg hcomma, if_pos hends]
    exact fun e he => by cases he
  | expression t ts others hright hcomma hends hothers ih =>
    rw [pair_arguments_of_expression hright hcomma hends rfl, hothers]
    refine List.forall_mem_cons.mpr ⟨Expr.yields_expression _ hc, ih ?_⟩
    rw [← hothers]
    split
    · exact isClassified_of_mem_rest _ hc
    · exact (List.forall_mem_cons.mp hc).2

theorem value_ended {α : Type} (a : α) (ts : List Token) : (ended a ts).value = a := by
  cases ts with
  | nil => rfl
  | cons t ts =>
    rw [ended]
    split
    · rfl
    · rfl

theorem yields_argumentList : Yields (fun args => ∀ e ∈ args, e.IsArithmetic) argumentList := by
  have hended : Yields (fun args => ∀ e ∈ args, e.IsArithmetic)
      fun ts => (arguments ts).andThen ended := by
    refine yields_arguments.andThen fun args hargs ts _ => ?_
    rw [value_ended]
    exact hargs
  intro ts hc
  cases ts with
  | nil => exact fun e he => by cases he
  | cons t ts =>
    rw [argumentList]
    split
    · exact hended ts (List.forall_mem_cons.mp hc).2
    · exact hended (t :: ts) hc

theorem isWellFormed_of_assignment? {target : Token} {ts : List Token} {reading : Reading Clause ts}
    (htarget : target.IsClassified) (hc : ∀ t ∈ ts, t.IsClassified)
    (h : assignment? target ts = some reading) : reading.value.IsWellFormed := by
  cases ts with
  | nil => cases h
  | cons t ts =>
    rw [assignment?] at h
    split at h
    · next hassign =>
      cases h
      exact ⟨htarget.isName hassign.1 (Bool.eq_false_iff.mpr hassign.2.1),
        yields_assignment ts (List.forall_mem_cons.mp hc).2⟩
    · cases h

/-- The clause that is read behind a token is well formed, if there is one. -/
theorem isWellFormed_of_read {t : Token} {ts : List Token} (hc : ∀ u ∈ t :: ts, u.IsClassified) :
    ∀ c ∈ (read Int t ts).value.toList, c.IsWellFormed := by
  obtain ⟨ht, hts⟩ := List.forall_mem_cons.mp hc
  rw [read]
  split
  · exact List.forall_mem_singleton.mpr (yields_header ts hts)
  split
  · exact List.forall_mem_singleton.mpr trivial
  cases hassign : assignment? t ts with
  | some reading =>
    exact List.forall_mem_singleton.mpr (isWellFormed_of_assignment? ht hts hassign)
  | none =>
    dsimp only
    split
    · exact List.forall_mem_singleton.mpr (yields_argumentList ts hts)
    · exact fun c hc => by cases hc

/-- **The clauses of a text are well formed.** -/
theorem isWellFormed_of_mem_ofTokens {tokens : List Token} (hc : ∀ t ∈ tokens, t.IsClassified) :
    ∀ c ∈ ofTokens Int tokens, c.IsWellFormed := by
  induction tokens using ofTokens.induct Int with
  | case1 =>
    rw [ofTokens_nil]
    exact fun c hc => by cases hc
  | case2 t ts reading ih =>
    rw [ofTokens_cons]
    refine List.forall_mem_append.mpr ⟨isWellFormed_of_read hc, ih ?_⟩
    exact isClassified_of_mem_rest reading (List.forall_mem_cons.mp hc).2

end Clause

/-! ### Programs -/

/-- Statements have no instructions but those of the clauses that they were made of, and the ends of
loops that have none. -/
theorem Stmt.clause_mem_of_mem_ofStmts {clauses : List Clause} {i : Instruction}
    (h : i ∈ Instruction.ofStmts (ofClauses clauses)) : i.clause ∈ clauses ∨ i = .loopEnd := by
  induction clauses with
  | nil => cases h
  | cons c clauses ih =>
    have hrest : i ∈ Instruction.ofStmts (ofClauses clauses) →
        i.clause ∈ c :: clauses ∨ i = .loopEnd :=
      fun h => (ih h).imp_left (List.mem_cons_of_mem c)
    cases c with
    | assign target value =>
      rw [ofClauses_assign, Instruction.ofStmts_assign, List.mem_cons] at h
      rcases h with rfl | h
      · exact .inl List.mem_cons_self
      · exact hrest h
    | write args =>
      rw [ofClauses_write, Instruction.ofStmts_write, List.mem_cons] at h
      rcases h with rfl | h
      · exact .inl List.mem_cons_self
      · exact hrest h
    | loopEnd =>
      rw [ofClauses_loopEnd] at h
      exact hrest h
    | loop condition =>
      obtain ⟨body, behind, hclauses, hloop⟩ := ofClauses_loop condition clauses
      rw [hclauses, Instruction.ofStmts_append, List.mem_append] at hrest
      rw [hloop, Instruction.ofStmts_loop, List.mem_cons, List.mem_append, List.mem_cons] at h
      rcases h with rfl | hbody | rfl | hbehind
      · exact .inl List.mem_cons_self
      · exact hrest (.inl hbody)
      · exact .inr rfl
      · exact hrest (.inr hbehind)

namespace Program

/-- A program that a text can have. -/
structure IsWellFormed (program : Program) : Prop where
  /-- Targets are names, and expressions are arithmetic, conditions below their root. -/
  clause : ∀ i ∈ program, i.clause.IsWellFormed
  /-- The head of a loop points forward to the end of a loop. -/
  last : ∀ head stop, program.LoopAt head stop →
    head < stop ∧ stop < program.length ∧ program[stop]? = some .loopEnd

/-- **The program of a text is well formed**, whatever the text. -/
theorem isWellFormed_ofTokens_scan (text : String) : (ofTokens (Token.scan text)).IsWellFormed := by
  have hclauses : ∀ c ∈ Clause.ofTokens Int (Token.scan text), c.IsWellFormed :=
    Clause.isWellFormed_of_mem_ofTokens fun t ht => isClassified_of_mem_scan ht
  constructor
  · intro i hi
    -- Linking changes no clause.
    have hclause : i.clause ∈ (ofTokens (Token.scan text)).map Instruction.clause :=
      List.mem_map_of_mem hi
    rw [ofTokens_eq, ofStmts, map_clause_link] at hclause
    obtain ⟨j, hj, hij⟩ := List.mem_map.mp hclause
    rw [← hij]
    rcases Stmt.clause_mem_of_mem_ofStmts hj with hmem | rfl
    · exact hclauses _ hmem
    · exact trivial
  · intro head stop hloop
    exact (matched_ofStmts _).last (Nat.zero_le head) hloop.lt_length hloop

end Program

end Stepwise
