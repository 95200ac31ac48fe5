import Stepwise.Proofs.Agreement
import Stepwise.Proofs.Display

/-!
# Programs as text

A list of statements can be printed, and the text is accepted and reads as those statements again.
The statements may be nested in any way. What is asked of them is that they can be written in the
language at all: the targets are names, expressions are trees that do not go too deep, a `write`
begins with a text, and conditions have one operator at most.

A printed text need not be laid out in one particular way. Any blanks may stand in front of a
statement, and there must be one on either side of `end-while`, unless the text ends there. So a
text that prints the statements is given by a relation.

The proof goes through the lexemes. Statements have lexemes, and every text that prints them is laid
out of these. Tokens with these lexemes are the tokens of nested phrases, and each of the phrases is
read as the statement it comes from.

## Main definitions

* `Stmt.Printable` — the statements that can be printed
* `Stmt.Prints` — the texts that print a list of statements
* `Grammar.ReadsAs` — phrases that are read as a list of statements

## Main results

* `Stmt.Prints.laid` — such a text is laid out of the lexemes of the statements
* `Stmt.Printable.exists_phrases` — tokens with those lexemes are phrases that read as them
* `ofTokens_scan_of_prints` — a printed text is accepted and reads as the statements it prints
-/

namespace Stepwise

open Grammar Reading Token

/-! ### Printed texts -/

/-- A run of blanks. -/
def Text.IsGap (gap : List Char) : Prop := ∀ c ∈ gap, Text.isBlank c = true

namespace Stmt

/-- The statements that can be printed and read. A `write` begins with a text and has no other, as
the checker accepts no other. -/
inductive Printable : List Stmt → Prop where
  | nil : Printable []
  | assign {target : String} {value : Expr} {rest : List Stmt} :
    IsName target → Expr.IsTree Expr.IsLeaf Expr.maxDepth value → Printable rest →
      Printable (.assign target value :: rest)
  | write {text : String} {args : List Expr} {rest : List Stmt} :
    '"' ∉ text.toList → (∀ e ∈ args, Expr.IsTree Expr.IsAtom Expr.maxDepth e) → Printable rest →
      Printable (.write (.text text :: args) :: rest)
  | loop {condition : Expr} {body rest : List Stmt} :
    Expr.IsCondition condition → Printable body → Printable rest →
      Printable (.loop condition body :: rest)

/-- The texts that print a list of statements. Any blanks may stand in front of a statement, and
there is at least one before the end of a loop, and behind it unless the text ends there. -/
inductive Prints : List Stmt → List Char → Prop where
  | nil {gap : List Char} : Text.IsGap gap → Prints [] gap
  | assign {target : String} {value : Expr} {rest : List Stmt} {gap text : List Char} :
    Text.IsGap gap → Prints rest text →
      Prints (.assign target value :: rest)
        (gap ++ (target ++ " = " ++ value.display ++ " ::").toList ++ text)
  | write {args : List Expr} {rest : List Stmt} {gap text : List Char} :
    Text.IsGap gap → Prints rest text →
      Prints (.write args :: rest)
        (gap ++ ("write(" ++ ", ".intercalate (args.map Expr.display) ++ ") ::").toList ++ text)
  | loop {condition : Expr} {body rest : List Stmt} {gap inner gap' text : List Char} :
    Text.IsGap gap → Prints body inner → Text.IsGap gap' → gap' ≠ [] → Prints rest text →
      (∀ c ∈ text.head?, Text.isBlank c = true) →
      Prints (.loop condition body :: rest)
        (gap ++ ("while " ++ condition.conditionText).toList ++ inner ++ gap' ++
          "end-while".toList ++ text)

/-- Statements have a text, on lines of its own if need be. -/
theorem exists_prints (stmts : List Stmt) : ∃ text, Prints stmts ('\n' :: text) := by
  have hline : Text.IsGap ['\n'] := List.forall_mem_singleton.mpr (by decide)
  induction stmts using Stmt.list_induction with
  | nil => exact ⟨[], .nil hline⟩
  | assign target value rest ih =>
    obtain ⟨text, htext⟩ := ih
    exact ⟨_, .assign hline htext⟩
  | write args rest ih =>
    obtain ⟨text, htext⟩ := ih
    exact ⟨_, .write hline htext⟩
  | loop condition body rest ihbody ihrest =>
    obtain ⟨inner, hinner⟩ := ihbody
    obtain ⟨text, htext⟩ := ihrest
    refine ⟨_, .loop hline hinner hline (by simp) htext fun c hc => ?_⟩
    cases hc
    decide

end Stmt

/-! ### Lexemes -/

/-- The lexemes of arguments behind the first. -/
def Expr.furtherLexemes (args : List Expr) : List String := args.flatMap fun e => "," :: e.lexemes

namespace Stmt

mutual

/-- The lexemes of a statement as it is printed. -/
def lexemesOf : Stmt → List String
  | .assign target value => target :: "=" :: (value.lexemes ++ ["::"])
  | .write args => "write" :: "(" ::
      ((args.take 1).flatMap Expr.lexemes ++ (Expr.furtherLexemes (args.drop 1) ++ [")", "::"]))
  | .loop condition body =>
    "while" :: "(" :: (condition.conditionLexemes ++ ")" :: (lexemes body ++ ["end-while"]))

/-- The lexemes of a list of statements as they are printed. -/
def lexemes : List Stmt → List String
  | [] => []
  | s :: rest => lexemesOf s ++ lexemes rest

end

@[simp] theorem lexemes_nil : lexemes [] = [] := by rw [lexemes]

@[simp] theorem lexemes_cons (s : Stmt) (rest : List Stmt) :
    lexemes (s :: rest) = lexemesOf s ++ lexemes rest := by rw [lexemes]

theorem lexemesOf_assign (target : String) (value : Expr) :
    lexemesOf (.assign target value) = target :: "=" :: (value.lexemes ++ ["::"]) := by
  rw [lexemesOf]

theorem lexemesOf_write (first : Expr) (args : List Expr) :
    lexemesOf (.write (first :: args)) =
      "write" :: "(" :: (first.lexemes ++ (Expr.furtherLexemes args ++ [")", "::"])) := by
  simp [lexemesOf]

theorem lexemesOf_loop (condition : Expr) (body : List Stmt) :
    lexemesOf (.loop condition body) =
      "while" :: "(" ::
        (condition.conditionLexemes ++ ")" :: (lexemes body ++ ["end-while"])) := by
  rw [lexemesOf]

end Stmt

theorem Expr.laid_arguments {first : Expr} {args : List Expr} {ls : List String}
    {rest : List Char} (h : ∀ e ∈ first :: args, IsTree IsLeaf maxDepth e) (hrest : Apart rest)
    (hlaid : Laid ls rest) :
    Laid (first.lexemes ++ (furtherLexemes args ++ ls))
      ((", ".intercalate ((first :: args).map display)).toList ++ rest) := by
  induction args generalizing first with
  | nil =>
    rw [List.map_singleton, String.intercalate_singleton]
    exact (h first List.mem_cons_self).laid hrest hlaid
  | cons e args ih =>
    rw [List.forall_mem_cons] at h
    have hcomma := ((ih h.2).blank (c := ' ') (by decide)).lexeme (s := ",")
      (stands_bracket (c := ',') (by decide) _)
    have hfirst := h.1.laid (apart_of_bracket (c := ',') (by decide) _) hcomma
    rw [List.map_cons, List.map_cons, String.intercalate_cons_cons, ← List.map_cons]
    simpa [furtherLexemes, List.append_assoc] using hfirst

namespace Stmt

theorem apart_append {text rest : List Char} (h : ∀ c ∈ text.head?, Text.isBlank c = true)
    (hrest : Apart rest) : Apart (text ++ rest) := by
  cases text with
  | nil => exact hrest
  | cons c text => exact apart_of_isBlank (h c rfl) _

theorem apart_append_of_ne_nil {gap : List Char} (hgap : Text.IsGap gap) (hne : gap ≠ [])
    (rest : List Char) : Apart (gap ++ rest) := by
  cases gap with
  | nil => exact absurd rfl hne
  | cons c gap => exact apart_of_isBlank (hgap c List.mem_cons_self) _

/-- **Printed texts.** A text that prints statements is laid out of their lexemes. -/
theorem Prints.laid {stmts : List Stmt} {text : List Char} (h : Prints stmts text)
    (hprintable : Printable stmts) {ls : List String} {rest : List Char} (hrest : Apart rest)
    (hlaid : Laid ls rest) : Laid (lexemes stmts ++ ls) (text ++ rest) := by
  have hblank : ∀ text, Apart (' ' :: text) := apart_of_isBlank (by decide)
  have hparen : ∀ text, Apart ('(' :: text) := apart_of_bracket (by decide)
  have hspace : ∀ {ls : List String} {text : List Char}, Laid ls text → Laid ls (' ' :: text) :=
    fun h => h.blank (by decide)
  induction h generalizing ls rest with
  | nil hgap => exact hlaid.blanks hgap
  | @assign target value stmts gap text hgap _ ih =>
    cases hprintable with
    | assign htarget hvalue hprintable =>
      have hstop := hspace ((ih hprintable hrest hlaid).lexeme (s := "::") (stands_terminator _))
      have hright := hspace (hvalue.laid (hblank _) hstop)
      have hsign := hspace (hright.lexeme (s := "=") (stands_relation (by decide) (hblank _)))
      have hstatement := (hsign.lexeme (stands_word htarget.word (hblank _))).blanks hgap
      rw [lexemes_cons, lexemesOf_assign]
      simpa [List.append_assoc] using hstatement
  | @write args stmts gap text hgap _ ih =>
    cases hprintable with
    | @write first args _ hfirst hargs hprintable =>
      have hleaf : ∀ e, Expr.IsAtom e → Expr.IsLeaf e := fun e => .atom
      have htrees : ∀ e ∈ .text first :: args, Expr.IsTree Expr.IsLeaf Expr.maxDepth e :=
        List.forall_mem_cons.mpr ⟨.leaf (.text hfirst), fun e he => (hargs e he).imp hleaf⟩
      have hstop := hspace ((ih hprintable hrest hlaid).lexeme (s := "::") (stands_terminator _))
      have hclose := hstop.lexeme (s := ")") (stands_bracket (c := ')') (by decide) _)
      have hargs := Expr.laid_arguments htrees (apart_of_bracket (c := ')') (by decide) _) hclose
      have hopen := hargs.lexeme (s := "(") (stands_bracket (c := '(') (by decide) _)
      have hword : IsWord "write".toList :=
        ⟨'w', ['r', 'i', 't', 'e'], rfl, rfl, List.all_eq_true.mp rfl⟩
      have hstatement := (hopen.lexeme (stands_word hword (hparen _))).blanks hgap
      rw [lexemes_cons, lexemesOf_write]
      simpa [List.append_assoc] using hstatement
  | @loop condition body stmts gap inner gap' text hgap _ hgap' hne _ hhead ihbody ih =>
    cases hprintable with
    | loop hcondition hprintableBody hprintable =>
      have hend := (ih hprintable hrest hlaid).lexeme (s := "end-while")
        (stands_endWhile (apart_append hhead hrest))
      -- The body may end in the end of a loop, which the blanks keep apart from this one.
      have hinner := ihbody hprintableBody (apart_append_of_ne_nil hgap' hne _) (hend.blanks hgap')
      have hcondition := hspace (hcondition.laid hinner)
      have hword : IsWord "while".toList :=
        ⟨'w', ['h', 'i', 'l', 'e'], rfl, rfl, List.all_eq_true.mp rfl⟩
      have hstatement := (hcondition.lexeme (stands_word hword (hblank _))).blanks hgap
      rw [lexemes_cons, lexemesOf_loop]
      simpa [List.append_assoc] using hstatement

end Stmt

/-! ### Arguments -/

namespace Expr

variable {e : Expr} {args : List Expr} {tokens : List Token} {depth : Nat}

/-- The tokens spell arguments, each behind a comma. -/
inductive SpellsFurther : List Expr → List Token → Prop where
  | nil : SpellsFurther [] []
  | cons {e : Expr} {args : List Expr} {comma : Token} {ts us : List Token}
    (isComma : comma.kind = .comma) (spells : Spells argumentKinds maxDepth e ts) :
    SpellsFurther args us → SpellsFurther (e :: args) (comma :: (ts ++ us))

theorem spellsFurther_of_map_lexeme (h : ∀ e ∈ args, IsTree IsAtom maxDepth e)
    (hc : ∀ t ∈ tokens, t.IsClassified) (htokens : tokens.map Token.lexeme = furtherLexemes args) :
    SpellsFurther args tokens := by
  have hatom : ∀ e, IsAtom e → IsLeaf e ∧
      ∀ t : Token, t.IsClassified → t.lexeme = e.display → t.kind ∈ argumentKinds := by
    intro e he
    refine ⟨.atom he, fun t ht hlexeme => ?_⟩
    rcases he.kind ht hlexeme with hkind | hkind <;> rw [hkind] <;> decide
  induction args generalizing tokens with
  | nil =>
    rw [List.map_eq_nil_iff.mp htokens]
    exact .nil
  | cons e args ih =>
    rw [List.forall_mem_cons] at h
    obtain ⟨comma, _, rfl, hcomma, htokens⟩ := List.map_eq_cons_iff.mp htokens
    obtain ⟨ts, us, rfl, hts, hus⟩ := List.map_eq_append_iff.mp htokens
    simp only [List.forall_mem_cons, List.forall_mem_append] at hc
    obtain ⟨hccomma, hcts, hcus⟩ := hc
    refine .cons ?_ (h.1.spells hatom hcts hts) (ih h.2 hcus hus)
    rw [hccomma, hcomma]
    decide

theorem SpellsFurther.balanced (h : SpellsFurther args tokens) : Balanced tokens := by
  induction h with
  | nil => exact balanced_nil
  | cons isComma spells _ ih =>
    have hcomma := balanced_singleton (ne_of_eq_of_ne isComma (by decide))
    exact hcomma.append (spells.balanced.append ih)

theorem SpellsFurther.isOf (h : SpellsFurther args tokens) :
    ∀ t ∈ tokens, t.IsOf argumentKinds := by
  induction h with
  | nil => exact fun t ht => by cases ht
  | cons isComma spells _ ih =>
    simp only [List.forall_mem_cons, List.forall_mem_append]
    refine ⟨.inr (.inr ?_), spells.isOf (by decide), ih⟩
    rw [isComma]
    decide

theorem SpellsFurther.isLoopWord_eq_false (h : SpellsFurther args tokens) :
    ∀ t ∈ tokens, t.isLoopWord = false := by
  induction h with
  | nil => exact fun t ht => by cases ht
  | cons isComma spells _ ih =>
    simp only [List.forall_mem_cons, List.forall_mem_append]
    exact ⟨not_isLoopWord_of_kind isComma (by decide), spells.isLoopWord_eq_false, ih⟩

/-- The tokens of a tree begin with a token that goes on with arguments. -/
theorem Spells.exists_cons (h : Spells argumentKinds depth e tokens) :
    ∃ t ts, tokens = t :: ts ∧ ¬ t.isParen ")" = true ∧ t.kind ≠ .comma ∧
      Clause.endsArguments t = false := by
  cases h with
  | @leaf _ _ t leaf kind =>
    have hparen := kind_ne_paren_of_leaf? leaf
    have hcomma : t.kind ≠ .comma := fun hk => by
      rw [Token.leaf?, hk] at leaf
      cases leaf
    have hends : ∀ k ∈ argumentKinds, k ≠ .terminator ∧ k ≠ .keyword := by decide
    exact ⟨t, [], rfl, fun hright => hparen (isParen_iff.mp hright).1, hcomma,
      Clause.endsArguments_of_isInner
        ⟨isLoopWord_of_leaf? leaf, (hends _ kind).1, (hends _ kind).2⟩⟩
  | binary _ isLeft =>
    obtain ⟨hkind, hlexeme⟩ := isParen_iff.mp isLeft
    refine ⟨_, _, rfl, fun hright => ?_, ne_of_eq_of_ne hkind (by decide),
      Clause.endsArguments_of_isInner (Clause.isInner_of_kind hkind (by decide) (by decide))⟩
    have hboth := hlexeme.symm.trans (isParen_iff.mp hright).2
    exact absurd hboth (by decide)

/-- **Arguments read back.** -/
theorem SpellsFurther.pair_arguments (h : SpellsFurther args tokens) {closing : Token}
    (hclosing : closing.isParen ")" = true) (rest : List Token) :
    (Clause.arguments (tokens ++ closing :: rest)).pair = (args, rest) := by
  induction h with
  | nil => exact Clause.pair_arguments_of_right hclosing
  | @cons e args comma ts us isComma spells hfurther ih =>
    have hstop : ∀ t ts', us ++ closing :: rest = t :: ts' → t.kind ≠ .arithmetic := by
      cases hfurther with
      | nil => exact kind_ne_arithmetic_of_right hclosing rest
      | cons isComma' =>
        intro t ts' heq
        cases heq
        exact ne_of_eq_of_ne isComma' (by decide)
    have hexpression := spells.pair_expression hstop
    obtain ⟨t, ts', rfl, hright, hcomma, hends⟩ := spells.exists_cons
    have hle := (List.suffix_append ts' (us ++ closing :: rest)).length_le
    rw [List.cons_append] at hexpression
    rw [List.cons_append, List.append_assoc, Clause.pair_arguments_of_comma isComma,
      List.cons_append,
      Clause.pair_arguments_of_expression hright hcomma hends hexpression, if_pos hle, ih]
    rfl

end Expr

/-! ### Phrases -/

namespace Grammar

/-- The phrases are read as the statements, in front of anything, and the checker has nothing to
say about them. -/
structure ReadsAs (phrases : List Phrase) (stmts : List Stmt) : Prop where
  nested : Nested phrases
  loopWords : ∀ p ∈ phrases, ∀ t ∈ p.tail, t.isLoopWord = false
  notes : ∀ p ∈ phrases, p.note? = none
  parts : ∀ rest, Stmt.partsOfClauses (clauses phrases ++ rest) =
    (stmts ++ (Stmt.partsOfClauses rest).1, (Stmt.partsOfClauses rest).2)

namespace ReadsAs

variable {p first last : Phrase} {phrases body : List Phrase} {stmts inner : List Stmt}

theorem nil : ReadsAs [] [] :=
  ⟨.nil, fun p hp => (by cases hp), fun p hp => (by cases hp), fun rest => rfl⟩

/-- A phrase that is read as a statement in front of others. -/
theorem cons (h : ReadsAs phrases stmts) {s : Stmt} {c : Clause} (hrole : p.role = .plain)
    (hclause : p.clause? = some c) (hloop : ∀ t ∈ p.tail, t.isLoopWord = false)
    (hparts : ∀ rest, Stmt.partsOfClauses (c :: rest) =
      (s :: (Stmt.partsOfClauses rest).1, (Stmt.partsOfClauses rest).2)) :
    ReadsAs (p :: phrases) (s :: stmts) := by
  have hnote : p.note? = none := by
    cases p with
    | empty | assignment | write => rfl
    | capture => cases hclause
    | conditional | conditionalEnd | loop | loopEnd => cases hrole
  refine ⟨.plain hrole h.nested, List.forall_mem_cons.mpr ⟨hloop, h.loopWords⟩,
    List.forall_mem_cons.mpr ⟨hnote, h.notes⟩, fun rest => ?_⟩
  rw [clauses_cons_of_some hclause, List.cons_append, hparts, h.parts]
  rfl

/-- The head of a loop, what is read as its body, and its end in front of others. -/
theorem loop (hbody : ReadsAs body inner) (h : ReadsAs phrases stmts)
    (word : LoopWord "while") (left : Left) (run : Run conditionKinds) (right : Right)
    (ending : LoopWord "end-while") {condition : Expr}
    (hcondition : (Expr.condition (run.tokens ++ [right.1])).value = condition)
    (hloop : ∀ t ∈ run.tokens, t.isLoopWord = false) :
    ReadsAs (.loop word left run right :: (body ++ .loopEnd ending :: phrases))
      (.loop condition inner :: stmts) := by
  have hclause : (Phrase.loop word left run right).clause? = some (.loop condition) := by
    rw [Phrase.clause?, hcondition]
  have htail : ∀ t ∈ (Phrase.loop word left run right).tail, t.isLoopWord = false := by
    simp only [Phrase.tail, List.forall_mem_cons, List.forall_mem_append]
    exact ⟨not_isLoopWord_of_isParen left.2, hloop, not_isLoopWord_of_isParen right.2,
      fun t ht => by cases ht⟩
  refine ⟨.block rfl rfl hbody.nested h.nested, ?_, ?_, fun rest => ?_⟩
  · simp only [List.forall_mem_cons, List.forall_mem_append]
    exact ⟨htail, hbody.loopWords, fun t ht => (by cases ht), h.loopWords⟩
  · simp only [List.forall_mem_cons, List.forall_mem_append]
    exact ⟨rfl, hbody.notes, rfl, h.notes⟩
  · have hparts := hbody.parts (.loopEnd :: (clauses phrases ++ rest))
    rw [Stmt.partsOfClauses_loopEnd, h.parts, List.append_nil] at hparts
    have hend : (Phrase.loopEnd ending).clause? = some .loopEnd := rfl
    rw [clauses_cons_of_some hclause, clauses_append, clauses_cons_of_some hend, List.cons_append,
      List.append_assoc, List.cons_append, Stmt.partsOfClauses_loop hparts]
    rfl

end ReadsAs

end Grammar

namespace Stmt

/-- The tokens are those of a phrase that is read as the clause. -/
def IsPhrase (c : Clause) (tokens : List Token) : Prop :=
  ∃ p : Phrase, p.tokens = tokens ∧ p.role = .plain ∧ p.clause? = some c ∧
    ∀ t ∈ p.tail, t.isLoopWord = false

/-- The tokens of an assignment, of which those of the right side spell a tree. -/
theorem isPhrase_assign_of_spells {target : String} {value : Expr} {name sign stop : Token}
    {ts : List Token} (htarget : IsName target)
    (hc : name.IsClassified ∧ sign.IsClassified ∧ stop.IsClassified) (hname : name.lexeme = target)
    (hsign : sign.lexeme = "=") (hstop : stop.lexeme = "::")
    (hspells : Expr.Spells valueKinds Expr.maxDepth value ts) :
    IsPhrase (.assign target value) (name :: sign :: (ts ++ [stop])) := by
  obtain ⟨hcname, hcsign, hcstop⟩ := hc
  have hkind : name.kind = .identifier := by
    rw [hcname, hname, kind_of_word htarget.word htarget.fixed]
  have hend : stop.kind = .terminator := by
    rw [hcstop, hstop]
    decide
  have hvalue : (Expr.expression (ts ++ [stop])).pair = (value, [stop]) :=
    hspells.pair_expression fun t ts' heq => by
      cases heq
      exact ne_of_eq_of_ne hend (by decide)
  refine ⟨.assignment ⟨name, hkind, htarget.isLoopWord_eq_false hname⟩
    ⟨sign, hcsign.accepts_kind hsign (by decide)⟩
    ⟨ts, hspells.isOf (by decide), hspells.balanced⟩
    ⟨stop, hcstop.accepts_kind hstop (by decide)⟩, rfl, rfl, ?_, ?_⟩
  · rw [Phrase.clause?, hname]
    exact congrArg (fun e => some (Clause.assign target e)) (congrArg Prod.fst hvalue)
  · simp only [Phrase.tail, List.forall_mem_cons, List.forall_mem_append]
    refine ⟨not_isLoopWord_of_kind (k := .assign) ?_ (by decide), hspells.isLoopWord_eq_false,
      not_isLoopWord_of_kind hend (by decide), fun t ht => by cases ht⟩
    rw [hcsign, hsign]
    decide

theorem isPhrase_assign {target : String} {value : Expr} {tokens : List Token}
    (htarget : IsName target) (hvalue : Expr.IsTree Expr.IsLeaf Expr.maxDepth value)
    (hc : ∀ t ∈ tokens, t.IsClassified)
    (htokens : tokens.map Token.lexeme = lexemesOf (.assign target value)) :
    IsPhrase (.assign target value) tokens := by
  have hleaf : ∀ e, Expr.IsLeaf e → Expr.IsLeaf e ∧
      ∀ t : Token, t.IsClassified → t.lexeme = e.display → t.kind ∈ valueKinds := by
    intro e he
    refine ⟨he, fun t ht hlexeme => ?_⟩
    rcases he.kind ht hlexeme with hkind | hkind | hkind <;> rw [hkind] <;> decide
  rw [lexemesOf_assign] at htokens
  obtain ⟨name, _, rfl, hname, htokens⟩ := List.map_eq_cons_iff.mp htokens
  obtain ⟨sign, _, rfl, hsign, htokens⟩ := List.map_eq_cons_iff.mp htokens
  obtain ⟨ts, _, rfl, hts, htokens⟩ := List.map_eq_append_iff.mp htokens
  obtain ⟨stop, rfl, hstop⟩ := List.map_eq_singleton_iff.mp htokens
  simp only [List.forall_mem_cons, List.forall_mem_append] at hc
  obtain ⟨hcname, hcsign, hcts, hcstop, -⟩ := hc
  exact isPhrase_assign_of_spells htarget ⟨hcname, hcsign, hcstop⟩ hname hsign hstop
    (hvalue.spells hleaf hcts hts)

theorem exists_further {args : List Expr} {tokens : List Token}
    (h : Expr.SpellsFurther args tokens) :
    ∃ further : Option (Terminal (.kind .comma) × Run argumentKinds),
      Phrase.furtherTokens further = tokens := by
  have hbalanced := h.balanced
  have hisOf := h.isOf
  cases h with
  | nil => exact ⟨none, rfl⟩
  | @cons _ _ comma ts us isComma =>
    obtain ⟨hcovers, hexcess⟩ := hbalanced
    have hflat := weight_of_kind isComma (by decide)
    have hrun := (covers_cons.mp hcovers).2
    rw [hflat] at hrun
    rw [excess_cons, hflat, Int.zero_add] at hexcess
    exact ⟨some (⟨comma, beq_iff_eq.mpr isComma⟩,
      ⟨ts ++ us, (List.forall_mem_cons.mp hisOf).2, hrun, hexcess⟩), rfl⟩

theorem isPhrase_write {text : String} {args : List Expr} {tokens : List Token}
    (htext : '"' ∉ text.toList) (hargs : ∀ e ∈ args, Expr.IsTree Expr.IsAtom Expr.maxDepth e)
    (hc : ∀ t ∈ tokens, t.IsClassified)
    (htokens : tokens.map Token.lexeme = lexemesOf (.write (.text text :: args))) :
    IsPhrase (.write (.text text :: args)) tokens := by
  have hfirst : (Expr.text text).lexemes = [(Expr.text text).display] := rfl
  rw [lexemesOf_write, hfirst, List.singleton_append] at htokens
  obtain ⟨word, _, rfl, hword, htokens⟩ := List.map_eq_cons_iff.mp htokens
  obtain ⟨left, _, rfl, hleft, htokens⟩ := List.map_eq_cons_iff.mp htokens
  obtain ⟨quoted, _, rfl, hquoted, htokens⟩ := List.map_eq_cons_iff.mp htokens
  obtain ⟨us, _, rfl, hus, htokens⟩ := List.map_eq_append_iff.mp htokens
  obtain ⟨right, _, rfl, hright, htokens⟩ := List.map_eq_cons_iff.mp htokens
  obtain ⟨stop, rfl, hstop⟩ := List.map_eq_singleton_iff.mp htokens
  simp only [List.forall_mem_cons, List.forall_mem_append] at hc
  obtain ⟨hcword, hcleft, hcquoted, hcus, hcright, hcstop, -⟩ := hc
  have hspells := Expr.spellsFurther_of_map_lexeme hargs hcus hus
  obtain ⟨further, hfurther⟩ := exists_further hspells
  have hstring := kind_of_quoted (Expr.toList_display_text text) htext
  have hend := hcstop.accepts_kind hstop (k := .terminator) (by decide)
  have hopen : left.isParen "(" = true := hcleft.accepts hleft (by decide)
  have hclose : right.isParen ")" = true := hcright.accepts hright (by decide)
  have hvalues := hspells.pair_arguments hclose []
  refine ⟨.write ⟨word, hcword.accepts hword (by decide)⟩ ⟨left, hopen⟩
    ⟨quoted, hcquoted.accepts_kind hquoted hstring⟩ further ⟨right, hclose⟩ ⟨stop, hend⟩,
    ?_, rfl, ?_, ?_⟩
  · simp [Phrase.tokens, Phrase.head, Phrase.tail, hfurther]
  · rw [Phrase.clause?, hfurther, hquoted, Expr.unquote_display_text]
    exact congrArg (fun args => some (Clause.write (.text text :: args)))
      (congrArg Prod.fst hvalues)
  · simp only [Phrase.tail, hfurther, List.forall_mem_cons, List.forall_mem_append]
    refine ⟨not_isLoopWord_of_isParen hopen, ?_, hspells.isLoopWord_eq_false,
      not_isLoopWord_of_isParen hclose, not_isLoopWord_of_kind (beq_iff_eq.mp hend) (by decide),
      fun t ht => by cases ht⟩
    refine not_isLoopWord_of_kind (k := .string) ?_ (by decide)
    rw [hcquoted, hquoted, hstring]

/-- **Tokens of statements.** Tokens with the lexemes of statements are those of phrases that are
read as the statements. -/
theorem Printable.exists_phrases {stmts : List Stmt} (h : Printable stmts) {tokens : List Token}
    (hc : ∀ t ∈ tokens, t.IsClassified) (htokens : tokens.map Token.lexeme = lexemes stmts) :
    ∃ phrases : List Phrase, phrases.flatMap Phrase.tokens = tokens ∧ ReadsAs phrases stmts := by
  induction h generalizing tokens with
  | nil =>
    rw [lexemes_nil, List.map_eq_nil_iff] at htokens
    exact ⟨[], htokens.symm, .nil⟩
  | @assign target value stmts htarget hvalue _ ih =>
    rw [lexemes_cons, List.map_eq_append_iff] at htokens
    obtain ⟨ts, behind, rfl, hts, hbehind⟩ := htokens
    rw [List.forall_mem_append] at hc
    obtain ⟨p, rfl, hrole, hclause, hloop⟩ := isPhrase_assign htarget hvalue hc.1 hts
    obtain ⟨phrases, rfl, hreads⟩ := ih hc.2 hbehind
    exact ⟨p :: phrases, List.flatMap_cons, hreads.cons hrole hclause hloop
      (partsOfClauses_assign target value)⟩
  | @write text args stmts htext hargs _ ih =>
    rw [lexemes_cons, List.map_eq_append_iff] at htokens
    obtain ⟨ts, behind, rfl, hts, hbehind⟩ := htokens
    rw [List.forall_mem_append] at hc
    obtain ⟨p, rfl, hrole, hclause, hloop⟩ := isPhrase_write htext hargs hc.1 hts
    obtain ⟨phrases, rfl, hreads⟩ := ih hc.2 hbehind
    exact ⟨p :: phrases, List.flatMap_cons, hreads.cons hrole hclause hloop
      (partsOfClauses_write (.text text :: args))⟩
  | @loop condition body stmts hcondition _ _ ihbody ih =>
    rw [lexemes_cons, lexemesOf_loop, List.map_eq_append_iff] at htokens
    obtain ⟨_, behind, rfl, hts, hbehind⟩ := htokens
    obtain ⟨word, _, rfl, hword, hts⟩ := List.map_eq_cons_iff.mp hts
    obtain ⟨left, _, rfl, hleft, hts⟩ := List.map_eq_cons_iff.mp hts
    obtain ⟨run, _, rfl, hrun, hts⟩ := List.map_eq_append_iff.mp hts
    obtain ⟨right, _, rfl, hright, hts⟩ := List.map_eq_cons_iff.mp hts
    obtain ⟨inner, _, rfl, hinner, hts⟩ := List.map_eq_append_iff.mp hts
    obtain ⟨ending, rfl, hending⟩ := List.map_eq_singleton_iff.mp hts
    simp only [List.forall_mem_cons, List.forall_mem_append] at hc
    obtain ⟨⟨hcword, hcleft, hcrun, hcright, hcinner, hcending, -⟩, hcbehind⟩ := hc
    have hspells := hcondition.spells hcrun hrun
    have hclose : right.isParen ")" = true := hcright.accepts hright (by decide)
    obtain ⟨front, rfl, hbody⟩ := ihbody hcinner hinner
    obtain ⟨phrases, rfl, hreads⟩ := ih hcbehind hbehind
    have hkinds : ∀ t ∈ run, t.kind ≠ .paren := fun t ht hkind => by
      have hmem := hspells.kind t ht
      rw [hkind] at hmem
      exact absurd hmem (by decide)
    have hloop := hbody.loop hreads ⟨word, hcword.accepts hword (by decide)⟩
      ⟨left, hcleft.accepts hleft (by decide)⟩
      ⟨run, fun t ht => .inr (.inr (hspells.kind t ht)), balanced_of_forall_kind_ne hkinds⟩
      ⟨right, hclose⟩ ⟨ending, hcending.accepts hending (by decide)⟩
      (hspells.value_condition hclose) hspells.isLoopWord_eq_false
    refine ⟨_, ?_, hloop⟩
    simp [Phrase.tokens, Phrase.head, Phrase.tail]

end Stmt

/-- **Printed programs read back.** -/
theorem ofTokens_scan_of_prints {stmts : List Stmt} {text : String} (h : Stmt.Printable stmts)
    (htext : Stmt.Prints stmts text.toList) :
    validate (Token.scan text) = [] ∧ notExecutedNotes (Token.scan text) = [] ∧
      Stmt.ofTokens (Token.scan text) = stmts ∧
      Program.ofTokens (Token.scan text) = Program.ofStmts stmts := by
  have hc : ∀ t ∈ Token.scan text, t.IsClassified := fun t ht => isClassified_of_mem_scan ht
  have hlaid := htext.laid h apart_nil .nil
  rw [List.append_nil, List.append_nil] at hlaid
  obtain ⟨phrases, hflat, hreads⟩ := h.exists_phrases hc (hlaid.map_lexeme 0)
  have hvalid : validate (Token.scan text) = [] :=
    (Check.program_eq_nil_iff hc).mpr ⟨phrases, hreads.nested.foldlM_follow [], hflat⟩
  have hstmts : Stmt.ofTokens (Token.scan text) = stmts := by
    have hclasses : ∀ p ∈ phrases, ∀ t ∈ p.tokens, t.IsClassified := fun p hp t ht =>
      hc t (hflat ▸ List.mem_flatMap.mpr ⟨p, hp, ht⟩)
    have hnil : Stmt.partsOfClauses [] = ([], []) := by rw [Stmt.partsOfClauses]
    have hparts := hreads.parts []
    rw [hnil, List.append_nil, List.append_nil] at hparts
    rw [← hflat, Stmt.ofTokens, Stmt.ofTokensIn, Clause.ofTokens_flatMap hclasses hreads.loopWords,
      Stmt.ofClauses, hparts]
    exact List.append_nil stmts
  refine ⟨hvalid, ?_, hstmts, ?_⟩
  · rw [← hflat, notExecutedNotes_flatMap, List.filterMap_eq_nil_iff]
    exact hreads.notes
  · rw [Program.ofTokens_eq, hstmts]

/-- A loop with a statement in it whose text has the end of a statement in it. -/
theorem ofTokens_scan_of_prints_nested :
    validate (Token.scan "while (n <> 3) write(\"::\", (n * 2)) ::\nend-while") = [] ∧
      notExecutedNotes (Token.scan "while (n <> 3) write(\"::\", (n * 2)) ::\nend-while") = [] ∧
      Stmt.ofTokens (Token.scan "while (n <> 3) write(\"::\", (n * 2)) ::\nend-while") =
        [.loop (.binary .notEq (.name "n") (.number 3))
          [.write [.text "::", .binary .mul (.name "n") (.number 2)]]] ∧
      Program.ofTokens (Token.scan "while (n <> 3) write(\"::\", (n * 2)) ::\nend-while") =
        Program.ofStmts
          [.loop (.binary .notEq (.name "n") (.number 3))
            [.write [.text "::", .binary .mul (.name "n") (.number 2)]]] := by
  have htwo : Double.IsPlain 2 := ⟨by decide +kernel, by decide +kernel⟩
  have hthree : Double.IsPlain 3 := ⟨by decide +kernel, by decide +kernel⟩
  have hname : Expr.IsAtom (.name "n") :=
    .name ⟨⟨'n', [], rfl, rfl, fun d hd => by cases hd⟩, by decide, by decide⟩
  have hproduct : Expr.IsTree Expr.IsAtom Expr.maxDepth (.binary .mul (.name "n") (.number 2)) :=
    .binary (by decide) (.leaf hname) (.leaf (.number htwo))
  refine ofTokens_scan_of_prints (.loop (.binary (by decide) hname (.number hthree))
    (.write (by decide) (List.forall_mem_singleton.mpr hproduct) .nil) .nil) ?_
  have htext : "while (n <> 3) write(\"::\", (n * 2)) ::\nend-while".toList =
      [] ++ ("while " ++ (Expr.binary .notEq (.name "n") (.number 3)).conditionText).toList ++
        ([' '] ++ ("write(" ++ ", ".intercalate
          ([Expr.text "::", .binary .mul (.name "n") (.number 2)].map Expr.display) ++
          ") ::").toList ++ []) ++ ['\n'] ++ "end-while".toList ++ [] := by
    decide +kernel
  have hnone : Text.IsGap [] := fun c hc => by cases hc
  have hspace : Text.IsGap [' '] := List.all_eq_true.mp rfl
  have hline : Text.IsGap ['\n'] := List.all_eq_true.mp rfl
  rw [htext]
  exact .loop hnone (.write hspace (.nil hnone)) hline (by simp) (.nil hnone)
    (fun c hc => by cases hc)

end Stepwise
