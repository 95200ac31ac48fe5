import Stepwise.Proofs.Numerals
import Stepwise.Proofs.Operands

/-!
# Expressions as text

An expression that is shown has parentheses around every operator, so its text reads back as the
same expression, whatever the precedence of the operators. There are limits to that. A negative
number is shown with a minus, which reads as an operator, a text with a quote in it ends early, a
name can be a word of the language, and below a certain depth nothing is read. A tree of arithmetic
operators that stays inside those limits is an `Expr.IsTree`.

The text of a tree is laid out of lexemes, and tokens with those lexemes spell the tree. It is the
reader that then goes along with the tree: at each parenthesis there is one level less of depth to
spend, and one level less of the tree to read.

The head of a loop is shown in another way than its condition is. Its parentheses are those of the
head, what stands in them is a number, a name, or two of these with a relation or a logic word
between them, and inequality is spelled as in the language.

## Main definitions

* `Expr.IsTree` — trees of arithmetic operators that can be shown and read
* `Expr.Spells` — tokens that spell a tree
* `Expr.IsCondition`, `Expr.conditionText` — conditions that can be shown and read, and their text

## Main results

* `Expr.IsTree.laid` — the text of a tree is laid out of its lexemes
* `Expr.Spells.pair_expression` — what spells a tree is read as that tree
* `Expr.IsCondition.laid`, `Expr.SpellsCondition.value_condition` — the same of conditions
-/

namespace Stepwise

open Reading Token

/-- A word that can be the name of a variable. -/
structure Token.IsName (s : String) : Prop where
  word : IsWord s.toList
  fixed : s ∉ keywords ∧ s ∉ logicWords
  loopWord : s ∉ ["while", "end-while"]

theorem Token.IsName.isLoopWord_eq_false {s : String} (h : IsName s) {t : Token}
    (ht : t.lexeme = s) : t.isLoopWord = false := by
  have hname := h.loopWord
  simp only [List.mem_cons, List.not_mem_nil, or_false, not_or] at hname
  refine Bool.eq_false_iff.mpr fun hloop => ?_
  rcases isLoopWord_iff.mp hloop with hword | hword
  · exact hname.1 (ht.symm.trans (isWord_iff.mp hword).2)
  · exact hname.2 (ht.symm.trans (isWord_iff.mp hword).2)

namespace Expr

variable {e left right : Expr} {op : Operator} {depth : Nat} {kinds : List Token.Kind}
  {ls : List String} {rest : List Char} {t : Token} {tokens : List Token}

/-! ### Leaves -/

/-- A number that is finite and not negative, or a name. -/
inductive IsAtom : Expr → Prop where
  | number {x : Float} : Double.IsPlain x → IsAtom (.number x)
  | name {s : String} : IsName s → IsAtom (.name s)

/-- An atom, or a text without quotes. -/
inductive IsLeaf : Expr → Prop where
  | atom {e : Expr} : IsAtom e → IsLeaf e
  | text {s : String} : '"' ∉ s.toList → IsLeaf (.text s)

/-- The lexemes of an expression as it is shown. -/
def lexemes : Expr → List String
  | .binary op left right => "(" :: (left.lexemes ++ op.symbol :: (right.lexemes ++ [")"]))
  | e => [e.display]

@[simp] theorem lexemes_binary (op : Operator) (left right : Expr) :
    (Expr.binary op left right).lexemes =
      "(" :: (left.lexemes ++ op.symbol :: (right.lexemes ++ [")"])) := rfl

theorem toList_display_text (s : String) :
    (Expr.text s).display.toList = '"' :: (s.toList ++ ['"']) := by
  simp [display]

theorem IsLeaf.lexemes_eq (h : IsLeaf e) : e.lexemes = [e.display] := by
  cases h with
  | atom h => cases h <;> rfl
  | text => rfl

theorem IsLeaf.stands (h : IsLeaf e) (hrest : Apart rest) : Stands e.display.toList rest := by
  cases h with
  | atom h =>
    cases h with
    | number hx =>
      obtain ⟨whole, fraction, hplain, -⟩ := exists_plain_numberText hx
      exact stands_plain hplain hrest
    | name hs => exact stands_word hs.word hrest
  | text hs =>
    rw [toList_display_text]
    exact stands_quoted hs rest

theorem unquote_display_text (s : String) : unquote (Expr.text s).display = s := by
  rw [unquote, toList_display_text]
  simp

theorem IsAtom.kind (h : IsAtom e) (hc : t.IsClassified) (ht : t.lexeme = e.display) :
    t.kind = .number ∨ t.kind = .identifier := by
  rw [hc, ht]
  cases h with
  | number hx =>
    obtain ⟨whole, fraction, hplain, -⟩ := exists_plain_numberText hx
    exact .inl (kind_of_plain hplain)
  | name hs => exact .inr (kind_of_word hs.word hs.fixed)

theorem IsLeaf.kind (h : IsLeaf e) (hc : t.IsClassified) (ht : t.lexeme = e.display) :
    t.kind = .number ∨ t.kind = .identifier ∨ t.kind = .string := by
  cases h with
  | atom h => exact (h.kind hc ht).imp_right .inl
  | text hs =>
    rw [hc, ht]
    exact .inr (.inr (kind_of_quoted (toList_display_text _) hs))

/-- The token of a leaf is that leaf. -/
theorem IsLeaf.leaf?_eq (h : IsLeaf e) (hc : t.IsClassified) (ht : t.lexeme = e.display) :
    t.leaf? = some e := by
  cases h with
  | atom h =>
    cases h with
    | @number x hx =>
      obtain ⟨whole, fraction, hplain, hread⟩ := exists_plain_numberText hx
      have hkind : t.kind = .number := by rw [hc, ht, display, kind_of_plain hplain]
      have hliteral : literal t.lexeme = .number x := by rw [literal, ht, display, hread]
      rw [Token.leaf?, hkind, hliteral]
    | @name s hs =>
      have hkind : t.kind = .identifier := by rw [hc, ht, display, kind_of_word hs.word hs.fixed]
      simp only [Token.leaf?, hkind, hs.isLoopWord_eq_false ht, Bool.false_eq_true, if_false]
      rw [ht, display]
  | @text s hs =>
    have hkind : t.kind = .string := by
      rw [hc, ht]
      exact kind_of_quoted (toList_display_text _) hs
    rw [Token.leaf?, hkind, ht, unquote_display_text]

/-! ### Trees -/

/-- A tree of arithmetic operators over leaves that satisfy `P`, with no more than `depth` operators
inside each other. -/
inductive IsTree (P : Expr → Prop) : Nat → Expr → Prop where
  | leaf {depth : Nat} {e : Expr} : P e → IsTree P depth e
  | binary {depth : Nat} {op : Operator} {left right : Expr} :
    op ∈ [.add, .sub, .mul, .div] → IsTree P depth left → IsTree P depth right →
      IsTree P (depth + 1) (.binary op left right)

theorem IsTree.imp {P Q : Expr → Prop} (h : IsTree P depth e) (hPQ : ∀ e, P e → Q e) :
    IsTree Q depth e := by
  induction h with
  | leaf h => exact .leaf (hPQ _ h)
  | binary hop _ _ ihleft ihright => exact .binary hop ihleft ihright

theorem stands_symbol (h : op ∈ [Operator.add, .sub, .mul, .div]) (rest : List Char) :
    Stands op.symbol.toList rest := by
  simp only [List.mem_cons, List.not_mem_nil, or_false] at h
  rcases h with rfl | rfl | rfl | rfl <;> exact stands_sign (by decide) rest

/-- **The text of a tree.** It is laid out of the lexemes of the tree, if what follows is apart from
it. -/
theorem IsTree.laid (h : IsTree IsLeaf depth e) (hrest : Apart rest)
    (hlaid : Laid ls rest) : Laid (e.lexemes ++ ls) (e.display.toList ++ rest) := by
  induction h generalizing ls rest with
  | leaf h =>
    rw [h.lexemes_eq, List.singleton_append]
    exact hlaid.lexeme (h.stands hrest)
  | @binary depth op left right hop _ _ ihleft ihright =>
    -- The text is put together from its end, as each lexeme stands in front of what follows.
    have hclose : Laid (")" :: ls) (')' :: rest) :=
      hlaid.lexeme (s := ")") (stands_bracket (by decide) rest)
    have hright := ihright (apart_of_bracket (by decide) rest) hclose
    have hsymbol := (hright.blank (c := ' ') (by decide)).lexeme (stands_symbol hop _)
    have hleft := ihleft (apart_of_isBlank (c := ' ') (by decide) _)
      (hsymbol.blank (c := ' ') (by decide))
    have hopen := hleft.lexeme (s := "(") (stands_bracket (by decide) _)
    simpa [display, List.append_assoc] using hopen

/-! ### Tokens of trees -/

/-- The tokens spell a tree that is not deeper than `depth`, with leaves of the given kinds. -/
inductive Spells (kinds : List Token.Kind) : Nat → Expr → List Token → Prop where
  | leaf {depth : Nat} {e : Expr} {t : Token} (leaf : t.leaf? = some e) (kind : t.kind ∈ kinds) :
    Spells kinds depth e [t]
  | binary {depth : Nat} {op : Operator} {left right : Expr} {opening sign closing : Token}
    {ts ts' : List Token} (op_mem : op ∈ [.add, .sub, .mul, .div])
    (isLeft : opening.isParen "(" = true) (isRight : closing.isParen ")" = true)
    (isSign : sign.kind = .arithmetic ∧ sign.lexeme = op.symbol) :
    Spells kinds depth left ts → Spells kinds depth right ts' →
      Spells kinds (depth + 1) (.binary op left right)
        (opening :: (ts ++ sign :: (ts' ++ [closing])))

/-- What the lexemes of leaves say of their tokens, the lexemes of a tree say of its tokens. -/
theorem IsTree.spells {P : Expr → Prop} (h : IsTree P depth e)
    (hleaf : ∀ e, P e → IsLeaf e ∧
      ∀ t : Token, t.IsClassified → t.lexeme = e.display → t.kind ∈ kinds)
    (hc : ∀ t ∈ tokens, t.IsClassified) (htokens : tokens.map Token.lexeme = e.lexemes) :
    Spells kinds depth e tokens := by
  induction h generalizing tokens with
  | leaf h =>
    obtain ⟨hleaf, hkind⟩ := hleaf _ h
    rw [hleaf.lexemes_eq, List.map_eq_singleton_iff] at htokens
    obtain ⟨t, rfl, ht⟩ := htokens
    have htoken := hc t List.mem_cons_self
    exact .leaf (hleaf.leaf?_eq htoken ht) (hkind t htoken ht)
  | @binary depth op left right hop _ _ ihleft ihright =>
    rw [lexemes_binary, List.map_eq_cons_iff] at htokens
    obtain ⟨opening, _, rfl, hopening, htokens⟩ := htokens
    obtain ⟨ts, _, rfl, hts, htokens⟩ := List.map_eq_append_iff.mp htokens
    obtain ⟨sign, _, rfl, hsign, htokens⟩ := List.map_eq_cons_iff.mp htokens
    obtain ⟨ts', _, rfl, hts', htokens⟩ := List.map_eq_append_iff.mp htokens
    obtain ⟨closing, rfl, hclosing⟩ := List.map_eq_singleton_iff.mp htokens
    simp only [List.forall_mem_cons, List.forall_mem_append] at hc
    obtain ⟨hcopening, hcts, hcsign, hcts', hcclosing, -⟩ := hc
    refine .binary hop (isParen_iff.mpr ⟨?_, hopening⟩) (isParen_iff.mpr ⟨?_, hclosing⟩)
      ⟨?_, hsign⟩ (ihleft hcts hts) (ihright hcts' hts')
    · rw [hcopening, hopening]
      decide
    · rw [hcclosing, hclosing]
      decide
    · rw [hcsign, hsign]
      revert hop
      cases op <;> decide

/-- The tokens that spell a tree are read as an operand, at any depth that the tree does not
exceed. -/
theorem Spells.pair_operand (h : Spells kinds depth e tokens) (ts : List Token) :
    (operand depth (tokens ++ ts)).pair = (e, ts) := by
  induction h generalizing ts with
  | @leaf depth e t hleaf _ =>
    cases depth <;> exact pair_operandWith_of_leaf hleaf ts
  | @binary depth op left right opening sign closing us us' hop hopening hclosing hsign _ _
      ihleft ihright =>
    have hstop := kind_ne_arithmetic_of_right hclosing ts
    have hsum : (sum (operand depth) (us ++ sign :: (us' ++ closing :: ts))).pair =
        (.binary op left right, closing :: ts) :=
      pair_sum_of_binary hop hsign (ihleft _) (ihright _) hstop
    -- Behind the parenthesis there is one level less to spend, and each side is one level lower.
    have htokens : opening :: (us ++ sign :: (us' ++ [closing])) ++ ts =
        opening :: (us ++ sign :: (us' ++ closing :: ts)) := by simp
    rw [htokens, operand, operandWith_of_left hopening, pair_behind, pair_andThen hsum, closed,
      if_pos hclosing, pair_skip]

/-- **Trees read back.** -/
theorem Spells.pair_expression (h : Spells kinds maxDepth e tokens) {ts : List Token}
    (hts : ∀ t ts', ts = t :: ts' → t.kind ≠ .arithmetic) :
    (expression (tokens ++ ts)).pair = (e, ts) :=
  pair_sum_of_stop hts (h.pair_operand ts)

/-- No token of a tree is a word of a loop. -/
theorem Spells.isLoopWord_eq_false (h : Spells kinds depth e tokens) :
    ∀ t ∈ tokens, t.isLoopWord = false := by
  induction h with
  | leaf hleaf _ => exact List.forall_mem_singleton.mpr (isLoopWord_of_leaf? hleaf)
  | binary _ hopening hclosing hsign _ _ ihleft ihright =>
    simp only [List.forall_mem_cons, List.forall_mem_append]
    exact ⟨not_isLoopWord_of_isParen hopening, ihleft,
      not_isLoopWord_of_kind hsign.1 (by decide), ihright,
      not_isLoopWord_of_isParen hclosing, fun t ht => by cases ht⟩

theorem Spells.isOf (h : Spells kinds depth e tokens) (hkinds : Token.Kind.arithmetic ∈ kinds) :
    ∀ t ∈ tokens, t.IsOf kinds := by
  induction h with
  | leaf _ hkind => exact List.forall_mem_singleton.mpr (.inr (.inr hkind))
  | binary _ hopening hclosing hsign _ _ ihleft ihright =>
    simp only [List.forall_mem_cons, List.forall_mem_append]
    exact ⟨.inl hopening, ihleft, .inr (.inr (hsign.1 ▸ hkinds)), ihright, .inr (.inl hclosing),
      fun t ht => by cases ht⟩

theorem Spells.balanced (h : Spells kinds depth e tokens) : Balanced tokens := by
  induction h with
  | leaf hleaf _ => exact balanced_singleton (kind_ne_paren_of_leaf? hleaf)
  | @binary depth op left right opening sign closing us us' _ hopening hclosing hsign _ _
      ihleft ihright =>
    have hflat : sign.kind ≠ .paren := ne_of_eq_of_ne hsign.1 (by decide)
    have hgroup := (ihleft.append ((balanced_singleton hflat).append ihright)).group
      hopening hclosing
    rwa [List.singleton_append, List.append_assoc, List.cons_append] at hgroup

end Expr

/-! ### Conditions -/

/-- An operator as it is spelled in the language. -/
def Operator.spelling : Operator → String
  | .notEq => "<>"
  | op => op.symbol

/-- The operators that can join the two sides of a condition. -/
def Operator.joining : List Operator :=
  [.less, .greater, .lessEq, .greaterEq, .notEq, .and, .or]

namespace Operator

variable {op : Operator}

theorem ofLexeme?_spelling (h : op ∈ joining) : ofLexeme? op.spelling = some op := by
  revert h
  cases op <;> decide

theorem kind_spelling (h : op ∈ joining) :
    Token.Kind.ofLexeme op.spelling = .relation ∨ Token.Kind.ofLexeme op.spelling = .logic := by
  revert h
  cases op <;> decide

theorem stands_spelling (h : op ∈ joining) {rest : List Char} (hrest : Apart rest) :
    Stands op.spelling.toList rest := by
  have hand : IsWord "and".toList := ⟨'a', ['n', 'd'], rfl, rfl, List.all_eq_true.mp rfl⟩
  have hor : IsWord "or".toList := ⟨'o', ['r'], rfl, rfl, List.all_eq_true.mp rfl⟩
  simp only [joining, List.mem_cons, List.not_mem_nil, or_false] at h
  rcases h with rfl | rfl | rfl | rfl | rfl | rfl | rfl
  · exact stands_relation (by decide) hrest
  · exact stands_relation (by decide) hrest
  · exact stands_wideRelation (by decide) rest
  · exact stands_wideRelation (by decide) rest
  · exact stands_wideRelation (by decide) rest
  · exact stands_word hand hrest
  · exact stands_word hor hrest

end Operator

namespace Expr

variable {e : Expr} {ls : List String} {rest : List Char} {tokens : List Token}

/-- A number or a name, or two of these with a relation or a logic word between them. -/
inductive IsCondition : Expr → Prop where
  | atom {e : Expr} : IsAtom e → IsCondition e
  | binary {op : Operator} {left right : Expr} :
    op ∈ Operator.joining → IsAtom left → IsAtom right → IsCondition (.binary op left right)

/-- A condition as it stands in the head of a loop. -/
def conditionText : Expr → String
  | .binary op left right =>
    "(" ++ left.display ++ " " ++ op.spelling ++ " " ++ right.display ++ ")"
  | e => "(" ++ e.display ++ ")"

/-- The lexemes between the parentheses. -/
def conditionLexemes : Expr → List String
  | .binary op left right => [left.display, op.spelling, right.display]
  | e => [e.display]

theorem IsAtom.condition_eq (h : IsAtom e) :
    e.conditionText = "(" ++ e.display ++ ")" ∧ e.conditionLexemes = [e.display] := by
  cases h <;> exact ⟨rfl, rfl⟩

/-- **The text of a condition.** -/
theorem IsCondition.laid (h : IsCondition e) (hlaid : Laid ls rest) :
    Laid ("(" :: (e.conditionLexemes ++ ")" :: ls)) (e.conditionText.toList ++ rest) := by
  have hclose : Laid (")" :: ls) (')' :: rest) :=
    hlaid.lexeme (s := ")") (stands_bracket (by decide) rest)
  have hbracket : Apart (')' :: rest) := apart_of_bracket (by decide) rest
  have hblank : ∀ text, Apart (' ' :: text) := apart_of_isBlank (by decide)
  cases h with
  | atom h =>
    have hopen := (hclose.lexeme ((IsLeaf.atom h).stands hbracket)).lexeme (s := "(")
      (stands_bracket (by decide) _)
    rw [h.condition_eq.1, h.condition_eq.2]
    simpa [List.append_assoc] using hopen
  | binary hop hleft hright =>
    have hbehind := (hclose.lexeme ((IsLeaf.atom hright).stands hbracket)).blank
      (c := ' ') (by decide)
    have hjoined := (hbehind.lexeme (Operator.stands_spelling hop (hblank _))).blank
      (c := ' ') (by decide)
    have hopen := (hjoined.lexeme ((IsLeaf.atom hleft).stands (hblank _))).lexeme (s := "(")
      (stands_bracket (by decide) _)
    simpa [conditionText, conditionLexemes, List.append_assoc] using hopen

/-- The tokens spell a condition. -/
inductive SpellsCondition : Expr → List Token → Prop where
  | atom {e : Expr} {t : Token} (leaf : t.leaf? = some e) (kind : t.kind ∈ [.number, .identifier]) :
    SpellsCondition e [t]
  | binary {op : Operator} {left right : Expr} {t sign t' : Token}
    (leftLeaf : t.leaf? = some left) (leftKind : t.kind ∈ [.number, .identifier])
    (rightLeaf : t'.leaf? = some right) (rightKind : t'.kind ∈ [.number, .identifier])
    (signKind : sign.kind ∈ [.relation, .logic])
    (signOp : Operator.ofLexeme? sign.lexeme = some op) :
    SpellsCondition (.binary op left right) [t, sign, t']

theorem IsCondition.spells (h : IsCondition e) (hc : ∀ t ∈ tokens, t.IsClassified)
    (htokens : tokens.map Token.lexeme = e.conditionLexemes) : SpellsCondition e tokens := by
  have hatom : ∀ {e : Expr} {t : Token}, IsAtom e → t.IsClassified → t.lexeme = e.display →
      t.leaf? = some e ∧ t.kind ∈ [.number, .identifier] := by
    intro e t he ht hlexeme
    refine ⟨(IsLeaf.atom he).leaf?_eq ht hlexeme, ?_⟩
    simpa using he.kind ht hlexeme
  cases h with
  | atom h =>
    rw [h.condition_eq.2, List.map_eq_singleton_iff] at htokens
    obtain ⟨t, rfl, ht⟩ := htokens
    obtain ⟨hleaf, hkind⟩ := hatom h (hc t List.mem_cons_self) ht
    exact .atom hleaf hkind
  | binary hop hleft hright =>
    rw [conditionLexemes, List.map_eq_cons_iff] at htokens
    obtain ⟨t, _, rfl, ht, htokens⟩ := htokens
    obtain ⟨sign, _, rfl, hsign, htokens⟩ := List.map_eq_cons_iff.mp htokens
    obtain ⟨t', rfl, ht'⟩ := List.map_eq_singleton_iff.mp htokens
    simp only [List.forall_mem_cons] at hc
    obtain ⟨hct, hcsign, hct', -⟩ := hc
    obtain ⟨hleftLeaf, hleftKind⟩ := hatom hleft hct ht
    obtain ⟨hrightLeaf, hrightKind⟩ := hatom hright hct' ht'
    refine .binary hleftLeaf hleftKind hrightLeaf hrightKind ?_ ?_
    · rw [hcsign, hsign]
      simpa using Operator.kind_spelling hop
    · rw [hsign, Operator.ofLexeme?_spelling hop]

theorem SpellsCondition.kind (h : SpellsCondition e tokens) :
    ∀ t ∈ tokens, t.kind ∈ Grammar.conditionKinds := by
  have hatom : [.number, .identifier] ⊆ Grammar.conditionKinds := by decide
  have hsign : [.relation, .logic] ⊆ Grammar.conditionKinds := by decide
  cases h with
  | atom _ kind => exact List.forall_mem_singleton.mpr (hatom kind)
  | binary _ leftKind _ rightKind signKind _ =>
    simp only [List.forall_mem_cons]
    exact ⟨hatom leftKind, hsign signKind, hatom rightKind, fun t ht => by cases ht⟩

theorem not_isLoopWord_of_sign {t : Token} (h : t.kind ∈ [Token.Kind.relation, Token.Kind.logic]) :
    t.isLoopWord = false := by
  refine not_isLoopWord_of_kind rfl ⟨?_, ?_⟩ <;>
  · intro hkind
    rw [hkind] at h
    exact absurd h (by decide)

theorem SpellsCondition.isLoopWord_eq_false (h : SpellsCondition e tokens) :
    ∀ t ∈ tokens, t.isLoopWord = false := by
  cases h with
  | atom leaf _ => exact List.forall_mem_singleton.mpr (isLoopWord_of_leaf? leaf)
  | binary leftLeaf _ rightLeaf _ signKind _ =>
    simp only [List.forall_mem_cons]
    exact ⟨isLoopWord_of_leaf? leftLeaf, not_isLoopWord_of_sign signKind,
      isLoopWord_of_leaf? rightLeaf, fun t ht => by cases ht⟩

/-- **Conditions read back.** -/
theorem SpellsCondition.value_condition (h : SpellsCondition e tokens) {closing : Token}
    (hclosing : closing.isParen ")" = true) : (condition (tokens ++ [closing])).value = e := by
  have hstop := kind_ne_arithmetic_of_right hclosing []
  have hjoin : joinsCondition closing = false := by
    rw [joinsCondition, (isParen_iff.mp hclosing).1]
    rfl
  show (condition (tokens ++ [closing])).pair.1 = e
  cases h with
  | atom leaf kind =>
    rw [condition, pair_andThen ((Spells.leaf leaf kind).pair_expression hstop)]
    simp only [hjoin, Bool.false_eq_true, if_false, pair_stay]
  | @binary op left right t sign t' leftLeaf leftKind rightLeaf rightKind signKind signOp =>
    have hsign : ∀ u us, sign :: ([t'] ++ [closing]) = u :: us → u.kind ≠ .arithmetic := by
      intro u us heq hkind
      cases heq
      rw [hkind] at signKind
      exact absurd signKind (by decide)
    have hjoins : joinsCondition sign = true := by
      simp only [List.mem_cons, List.not_mem_nil, or_false] at signKind
      rcases signKind with hkind | hkind <;> rw [joinsCondition, hkind] <;> rfl
    have hleft : (expression (t :: sign :: ([t'] ++ [closing]))).pair =
        (left, sign :: ([t'] ++ [closing])) :=
      (Spells.leaf leftLeaf leftKind).pair_expression hsign
    have hright := (Spells.leaf rightLeaf rightKind).pair_expression hstop
    show (condition (t :: sign :: ([t'] ++ [closing]))).pair.1 = _
    rw [condition, pair_andThen hleft]
    simp only [hjoins, if_true, pair_behind, pair_map hright, signOp]

end Expr

end Stepwise
