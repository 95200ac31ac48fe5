import Stepwise.Proofs.Readers

/-!
# The operands of an expression

Reading an expression is a matter of precedence and of parentheses, and it is done by readers that
call each other. Which operands get into the expression is a simpler matter. A single scan decides
it, which knows whether an operand is wanted and how deep operands may still stand, here and around
each parenthesis that is open.

The scan goes on as long as the tokens alternate as they should. It stops in front of an operand or
an opening parenthesis that stands directly behind another operand, in front of a closing
parenthesis that closes nothing, and in front of a token that has no place in an expression. What it
has passed is what the readers take in, and there is nothing in the expression but the operands that
were passed and zeros. So an operand behind the point where the scan stops is lost, and no operand
before it is.

The readers cannot be followed level by level here: where the scan stops inside parentheses, each of
the readers on the way out finds that there is nothing to do. That is why what is said of a reader,
`Place.Takes`, speaks of the whole scan and not of the piece that the reader has read.

## Main definitions

* `Token.leaf?` — the operand that a token is
* `Expr.leaves` — the operands in an expression
* `Place` — the state of the scan
* `Padded` — a list with zeros put in

## Main results

* `Expr.takes_expression` — an expression has the operands that the scan passes, and zeros
-/

namespace Stepwise

/-! ### Leaves -/

/-- The operand that a token is, if it is one: a number, a name, or a text. -/
def Token.leaf? (t : Token) : Option Expr :=
  match t.kind with
  | .number => some (Expr.literal t.lexeme)
  | .identifier => if t.isLoopWord then none else some (.name t.lexeme)
  | .string => some (.text (Expr.unquote t.lexeme))
  | _ => none

/-- The operands in an expression, from left to right. -/
def Expr.leaves : Expr → List Expr
  | .binary _ left right => left.leaves ++ right.leaves
  | e => [e]

@[simp] theorem Expr.leaves_binary (op : Operator) (left right : Expr) :
    (Expr.binary op left right).leaves = left.leaves ++ right.leaves := rfl

@[simp] theorem Expr.leaves_zero : Expr.zero.leaves = [Expr.zero] := rfl

@[simp] theorem Expr.leaves_negate (e : Expr) : e.negate.leaves = .zero :: e.leaves := rfl

theorem Token.leaves_of_leaf? {t : Token} {e : Expr} (h : t.leaf? = some e) : e.leaves = [e] := by
  unfold Token.leaf? at h
  split at h
  · cases h
    unfold Expr.literal
    split <;> rfl
  · split at h
    · cases h
    · cases h
      rfl
  · cases h
    rfl
  · cases h

/-- The second list is the first with zeros put in. -/
inductive Padded : List Expr → List Expr → Prop where
  | nil : Padded [] []
  | keep (e : Expr) {es fs : List Expr} : Padded es fs → Padded (e :: es) (e :: fs)
  | zero {es fs : List Expr} : Padded es fs → Padded es (.zero :: fs)

namespace Padded

theorem refl : (es : List Expr) → Padded es es
  | [] => nil
  | e :: es => (refl es).keep e

theorem append {es fs es' fs' : List Expr} (h : Padded es fs) (h' : Padded es' fs') :
    Padded (es ++ es') (fs ++ fs') := by
  induction h with
  | nil => exact h'
  | keep e _ ih => exact ih.keep e
  | zero _ ih => exact ih.zero

theorem sublist {es fs : List Expr} (h : Padded es fs) : es.Sublist fs := by
  induction h with
  | nil => exact .slnil
  | keep e _ ih => exact ih.cons_cons e
  | zero _ ih => exact ih.cons _

end Padded

/-! ### The scan -/

/-- Whether a token is one of the arithmetic operators. -/
def Token.isSign (t : Token) : Bool :=
  t.kind == .arithmetic && Token.arithmeticSigns.contains t.lexeme

/-- Where a scan stands in an expression. -/
structure Place where
  /-- How deep operands may stand inside the operand that is wanted, or nothing if one has just
  ended. -/
  wanted : Option Nat
  /-- How deep they may stand inside each operand between the innermost parentheses. -/
  depth : Nat
  /-- The same around those parentheses, innermost first. -/
  outer : List Nat

namespace Place

/-- Where an expression begins in which operands may stand to the given depth. -/
def start (depth : Nat) : Place := ⟨some depth, depth, []⟩

/-- The same place with an operand ended. -/
def close (p : Place) : Place := ⟨none, p.depth, p.outer⟩

/-- Where the scan stands behind a token that follows an operand. -/
def afterOperand (p : Place) (t : Token) : Option Place :=
  if t.isParen ")" then
    match p.outer with
    | [] => none
    | depth :: outer => some ⟨none, depth, outer⟩
  else if t.isSign then some ⟨some p.depth, p.depth, p.outer⟩
  else none

/-- Where the scan stands behind a token, or nothing if it stops in front of it. Where an operand is
wanted that is not there, one is taken to have ended. At the last depth a parenthesis or a minus is
such an operand by itself. -/
def next (p : Place) (t : Token) : Option Place :=
  match p.wanted with
  | none => p.afterOperand t
  | some depth =>
    if t.leaf?.isSome then some p.close
    else if t.isParen "(" then
      match depth with
      | 0 => some p.close
      | inner + 1 => some ⟨some inner, inner, p.depth :: p.outer⟩
    else if t.kind = .arithmetic ∧ t.lexeme = "-" then
      match depth with
      | 0 => some p.close
      | inner + 1 => some ⟨some inner, p.depth, p.outer⟩
    else p.afterOperand t

/-- The operands that the scan passes. -/
def operands (p : Place) : List Token → List Expr
  | [] => []
  | t :: ts =>
    match p.next t with
    | some q => t.leaf?.toList ++ q.operands ts
    | none => []

/-- The tokens that the scan does not pass. -/
def rest (p : Place) : List Token → List Token
  | [] => []
  | t :: ts =>
    match p.next t with
    | some q => q.rest ts
    | none => t :: ts

variable {p q : Place} {t : Token} {ts : List Token}

@[simp] theorem operands_nil (p : Place) : p.operands [] = [] := rfl

@[simp] theorem rest_nil (p : Place) : p.rest [] = [] := rfl

theorem operands_of_some (h : p.next t = some q) (ts : List Token) :
    p.operands (t :: ts) = t.leaf?.toList ++ q.operands ts := by
  rw [operands, h]

theorem rest_of_some (h : p.next t = some q) (ts : List Token) :
    p.rest (t :: ts) = q.rest ts := by
  rw [rest, h]

theorem operands_of_none (h : p.next t = none) (ts : List Token) : p.operands (t :: ts) = [] := by
  rw [operands, h]

theorem rest_of_none (h : p.next t = none) (ts : List Token) : p.rest (t :: ts) = t :: ts := by
  rw [rest, h]

theorem rest_suffix (p : Place) (ts : List Token) : p.rest ts <:+ ts := by
  induction ts generalizing p with
  | nil => exact List.suffix_refl _
  | cons t ts ih =>
    cases h : p.next t with
    | none => simp only [rest_of_none h, List.suffix_refl]
    | some q =>
      rw [rest_of_some h]
      exact (ih q).trans (List.suffix_cons t ts)

/-- The operands among the tokens are those that the scan passes and those that it leaves. -/
theorem filterMap_leaf?_eq (p : Place) (ts : List Token) :
    ts.filterMap Token.leaf? = p.operands ts ++ (p.rest ts).filterMap Token.leaf? := by
  induction ts generalizing p with
  | nil => rfl
  | cons t ts ih =>
    cases h : p.next t with
    | none => rw [operands_of_none h, rest_of_none h, List.nil_append]
    | some q =>
      rw [operands_of_some h, rest_of_some h, List.append_assoc, ← ih q, List.filterMap_cons]
      cases t.leaf? <;> rfl

/-! ### One token -/

theorem afterOperand_of_right (h : t.isParen ")" = true) (wanted : Option Nat)
    (depth inner : Nat) (outer : List Nat) :
    (⟨wanted, inner, depth :: outer⟩ : Place).afterOperand t = some ⟨none, depth, outer⟩ := by
  rw [afterOperand, if_pos h]

theorem afterOperand_of_right_nil (h : t.isParen ")" = true) (wanted : Option Nat) (depth : Nat) :
    (⟨wanted, depth, []⟩ : Place).afterOperand t = none := by
  rw [afterOperand, if_pos h]

theorem afterOperand_of_sign (h : t.isSign = true) (p : Place) :
    p.afterOperand t = some ⟨some p.depth, p.depth, p.outer⟩ := by
  have hright : ¬ t.isParen ")" = true := fun hright => by
    rw [Token.isSign, (Token.isParen_iff.mp hright).1] at h
    cases h
  rw [afterOperand, if_neg hright, if_pos h]

theorem afterOperand_eq_none (hright : ¬ t.isParen ")" = true) (h : t.isSign = false) (p : Place) :
    p.afterOperand t = none := by
  rw [afterOperand, if_neg hright, h, if_neg Bool.false_ne_true]

/-- Where two places go on alike, they pass the same. -/
theorem operands_congr (h : p.next t = q.next t) (ts : List Token) :
    p.operands (t :: ts) = q.operands (t :: ts) ∧ p.rest (t :: ts) = q.rest (t :: ts) := by
  rw [operands, operands, rest, rest, h]
  exact ⟨rfl, rfl⟩

/-! ### What is taken -/

/-- What was read from the tokens brings the scan from `p` to `q`: the operands on the way are those
of the expression that was read, apart from zeros. -/
def Takes (p q : Place) (tokens : List Token) (read : Expr × List Token) : Prop :=
  ∃ front, p.operands tokens = front ++ q.operands read.2 ∧ p.rest tokens = q.rest read.2 ∧
    Padded front read.1.leaves

variable {p' : Place} {read : Expr × List Token}

theorem Takes.behind (h : Takes q p' ts read) (hnext : p.next t = some q) (hleaf : t.leaf? = none) :
    Takes p p' (t :: ts) read := by
  obtain ⟨front, hoperands, hrest, hpadded⟩ := h
  refine ⟨front, ?_, ?_, hpadded⟩
  · rw [operands_of_some hnext, hleaf, Option.toList_none, List.nil_append, hoperands]
  · rw [rest_of_some hnext, hrest]

/-- Where an operand is wanted and none is there, zero is one. -/
theorem takes_zero (h : p.next t = q.next t) (ts : List Token) :
    Takes p q (t :: ts) (Expr.zero, t :: ts) :=
  ⟨[], (operands_congr h ts).1, (operands_congr h ts).2, .zero .nil⟩

theorem takes_zero_behind (h : p.next t = some q) (hleaf : t.leaf? = none) (ts : List Token) :
    Takes p q (t :: ts) (Expr.zero, ts) := by
  refine ⟨[], ?_, rest_of_some h ts, .zero .nil⟩
  rw [operands_of_some h, hleaf]
  rfl

theorem takes_leaf {e : Expr} (h : p.next t = some q) (hleaf : t.leaf? = some e)
    (ts : List Token) : Takes p q (t :: ts) (e, ts) := by
  refine ⟨[e], ?_, rest_of_some h ts, ?_⟩
  · rw [operands_of_some h, hleaf]
    rfl
  · rw [Token.leaves_of_leaf? hleaf]
    exact .refl [e]

theorem Takes.negate (h : Takes p q ts read) : Takes p q ts (read.1.negate, read.2) := by
  obtain ⟨front, hoperands, hrest, hpadded⟩ := h
  exact ⟨front, hoperands, hrest, hpadded.zero⟩

/-- Behind a complete operand and a sign, another operand is taken. -/
theorem Takes.binary {tokens : List Token} {left right : Expr} {rest : List Token} {op : Operator}
    (h : Takes p q tokens (left, t :: ts)) (hnext : q.next t = some p') (hleaf : t.leaf? = none)
    (hright : Takes p' q ts (right, rest)) : Takes p q tokens (.binary op left right, rest) := by
  obtain ⟨front, hoperands, hrest, hpadded⟩ := h
  obtain ⟨front', hoperands', hrest', hpadded'⟩ := hright.behind hnext hleaf
  refine ⟨front ++ front', ?_, ?_, hpadded.append hpadded'⟩
  · rw [hoperands, hoperands', List.append_assoc]
  · rw [hrest, hrest']

end Place

namespace Token

variable {t : Token}

theorem leaf?_of_paren (h : t.kind = .paren) : t.leaf? = none := by
  rw [leaf?, h]

theorem leaf?_of_arithmetic (h : t.kind = .arithmetic) : t.leaf? = none := by
  rw [leaf?, h]

theorem kind_ne_paren_of_leaf? {e : Expr} (h : t.leaf? = some e) : t.kind ≠ .paren := by
  intro hkind
  rw [leaf?_of_paren hkind] at h
  cases h

theorem isLoopWord_of_leaf? {e : Expr} (h : t.leaf? = some e) : t.isLoopWord = false := by
  unfold leaf? at h
  split at h
  case h_1 hk => exact not_isLoopWord_of_kind hk (by decide)
  case h_2 =>
    split at h
    · cases h
    · exact Bool.eq_false_iff.mpr ‹_›
  case h_3 hk => exact not_isLoopWord_of_kind hk (by decide)
  case h_4 => cases h

theorem isSign_of_operatorAmong? {operators : List Operator} {op : Operator}
    (hoperators : operators ⊆ [.add, .sub, .mul, .div])
    (h : Expr.operatorAmong? operators t = some op) : t.isSign = true := by
  have hkind := Expr.kind_of_operatorAmong? h
  rw [Expr.operatorAmong?, if_pos hkind, Option.filter_eq_some_iff, List.contains_iff_mem] at h
  have hop := hoperators h.2
  have hsymbol : op.symbol = t.lexeme := by
    have hlexeme := h.1
    unfold Operator.ofLexeme? at hlexeme
    split at hlexeme
    · cases hlexeme
      exact absurd hop (by decide)
    · split at hlexeme
      · cases hlexeme
        exact absurd hop (by decide)
      · exact beq_iff_eq.mp
          (List.find?_some (p := fun op => Operator.symbol op == t.lexeme) hlexeme)
  have hsign : op.symbol ∈ arithmeticSigns := by
    revert hop
    cases op <;> decide
  rw [isSign, hkind, ← hsymbol, List.contains_iff_mem.mpr hsign]
  rfl

theorem isSign_eq_false (h : Expr.operatorAmong? [.add, .sub] t = none)
    (h' : Expr.operatorAmong? [.mul, .div] t = none) : t.isSign = false := by
  refine Bool.eq_false_iff.mpr fun hsign => ?_
  rw [isSign, Bool.and_eq_true, beq_iff_eq, List.contains_iff_mem] at hsign
  rw [Expr.operatorAmong?, if_pos hsign.1] at h h'
  have hlexeme : t.lexeme = "+" ∨ t.lexeme = "-" ∨ t.lexeme = "*" ∨ t.lexeme = "/" := by
    simpa [arithmeticSigns] using hsign.2
  rcases hlexeme with hl | hl | hl | hl <;> rw [hl] at h h' <;> revert h h' <;> decide

end Token

namespace Expr

open Reading

variable {operators : List Operator} {item : Reader Expr} {depth : Nat} {outer : List Nat}

/-- No sign stands in front of the tokens. -/
def NoSign (tokens : List Token) : Prop := ∀ t ts, tokens = t :: ts → t.isSign = false

/-- None of the operators stands in front of the tokens. -/
def NoOperator (operators : List Operator) (tokens : List Token) : Prop :=
  ∀ t ts, tokens = t :: ts → operatorAmong? operators t = none

/-- A chain stops where none of its operators follows. -/
theorem noOperator_chain (left : Expr) (tokens : List Token) :
    NoOperator operators (chain operators item left tokens).rest := by
  induction left, tokens using chain_induction operators item with
  | nil left =>
    rw [rest_chain_nil]
    exact fun t ts hts => by cases hts
  | stop left t ts hop =>
    rw [rest_chain_of_none hop]
    rintro t' ts' hts
    cases hts
    exact hop
  | operator left t ts op hop ih =>
    rw [rest_chain_of_some hop]
    exact ih

/-- A chain ends where its last item ends. -/
theorem rest_chain_of_item {P : List Token → Prop} (hitem : ∀ ts, P (item ts).rest) (left : Expr)
    {tokens : List Token} (h : P tokens) : P (chain operators item left tokens).rest := by
  induction left, tokens using chain_induction operators item with
  | nil left => rwa [rest_chain_nil]
  | stop left t ts hop => rwa [rest_chain_of_none hop]
  | operator left t ts op hop ih =>
    rw [rest_chain_of_some hop]
    exact ih (hitem ts)

/-- No sign stands where a sum ends. -/
theorem noSign_sum (operand : Reader Expr) (tokens : List Token) :
    NoSign (sum operand tokens).rest := by
  have hterm : ∀ ts, NoOperator [.mul, .div] (chained [.mul, .div] operand ts).rest :=
    fun ts => noOperator_chain (operand ts).value (operand ts).rest
  have hsum : NoOperator [.add, .sub] (sum operand tokens).rest :=
    noOperator_chain (chained [.mul, .div] operand tokens).value
      (chained [.mul, .div] operand tokens).rest
  have hproduct : NoOperator [.mul, .div] (sum operand tokens).rest :=
    rest_chain_of_item hterm _ (hterm tokens)
  intro t ts hts
  exact Token.isSign_eq_false (hsum t ts hts) (hproduct t ts hts)

theorem takes_chain {p : Place} {tokens ts : List Token} {left : Expr}
    (hoperators : operators ⊆ [.add, .sub, .mul, .div])
    (hitem : ∀ ts, Place.Takes ⟨some depth, depth, outer⟩ ⟨none, depth, outer⟩ ts (item ts).pair)
    (h : Place.Takes p ⟨none, depth, outer⟩ tokens (left, ts)) :
    Place.Takes p ⟨none, depth, outer⟩ tokens (chain operators item left ts).pair := by
  induction left, ts using chain_induction operators item with
  | nil left => rwa [pair, value_chain_nil, rest_chain_nil]
  | stop left t ts hop => rwa [pair_chain_of_none hop]
  | operator left t ts op hop ih =>
    have hsign := Token.isSign_of_operatorAmong? hoperators hop
    have hleaf := Token.leaf?_of_arithmetic (kind_of_operatorAmong? hop)
    rw [pair_chain_of_some hop rfl]
    exact ih (h.binary (Place.afterOperand_of_sign hsign _) hleaf (hitem ts))

theorem takes_chained (hoperators : operators ⊆ [.add, .sub, .mul, .div])
    (hitem : ∀ ts, Place.Takes ⟨some depth, depth, outer⟩ ⟨none, depth, outer⟩ ts (item ts).pair)
    (ts : List Token) :
    Place.Takes ⟨some depth, depth, outer⟩ ⟨none, depth, outer⟩ ts
      (chained operators item ts).pair := by
  rw [chained, pair_andThen rfl]
  exact takes_chain hoperators hitem (hitem ts)

theorem takes_sum
    (hitem : ∀ ts, Place.Takes ⟨some depth, depth, outer⟩ ⟨none, depth, outer⟩ ts (item ts).pair)
    (ts : List Token) :
    Place.Takes ⟨some depth, depth, outer⟩ ⟨none, depth, outer⟩ ts (sum item ts).pair :=
  takes_chained (by simp) (takes_chained (by simp) hitem) ts

/-- A parenthesis is closed where it can be, and where it cannot the scan has come to its end, so
that it does not matter whether one is open. -/
theorem takes_closed {p : Place} {tokens ts : List Token} {e : Expr} {inner : Nat}
    (h : Place.Takes p ⟨none, inner, depth :: outer⟩ tokens (e, ts)) (hsign : NoSign ts) :
    Place.Takes p ⟨none, depth, outer⟩ tokens (closed e ts).pair := by
  obtain ⟨front, hoperands, hrest, hpadded⟩ := h
  cases ts with
  | nil => exact ⟨front, hoperands, hrest, hpadded⟩
  | cons t ts =>
    by_cases hright : t.isParen ")" = true
    · have hnext : (⟨none, inner, depth :: outer⟩ : Place).next t = some ⟨none, depth, outer⟩ :=
        Place.afterOperand_of_right hright ..
      have hleaf := Token.leaf?_of_paren (Token.isParen_iff.mp hright).1
      rw [closed, if_pos hright, pair_skip]
      refine ⟨front, ?_, ?_, hpadded⟩
      · rw [hoperands, Place.operands_of_some hnext, hleaf]
        rfl
      · rw [hrest, Place.rest_of_some hnext]
    · have hstop : ∀ q : Place, q.afterOperand t = none := fun q =>
        Place.afterOperand_eq_none hright (hsign t ts rfl) q
      have hcongr := Place.operands_congr (t := t) (p := ⟨none, inner, depth :: outer⟩)
        (q := ⟨none, depth, outer⟩) ((hstop _).trans (hstop _).symm) ts
      rw [closed, if_neg hright, pair_stay]
      exact ⟨front, hoperands.trans (congrArg _ hcongr.1), hrest.trans hcongr.2, hpadded⟩

/-! ### Operands -/

variable {grouped negated : Reader Expr} {t : Token}

theorem pair_operandWith_of_leaf {e : Expr} (h : t.leaf? = some e) (ts : List Token) :
    (operandWith grouped negated (t :: ts)).pair = (e, ts) := by
  unfold Token.leaf? at h
  split at h
  case h_1 hk =>
    cases h
    rw [operandWith, hk, pair_skip]
  case h_2 hk =>
    cases hl : t.isLoopWord with
    | true =>
      rw [hl] at h
      cases h
    | false =>
      rw [hl] at h
      cases h
      simp only [operandWith, hk, hl, Bool.false_eq_true, if_false, pair_skip]
  case h_3 hk =>
    cases h
    rw [operandWith, hk, pair_skip]
  case h_4 => cases h

theorem operandWith_of_left (h : t.isParen "(" = true) (ts : List Token) :
    operandWith grouped negated (t :: ts) = (grouped ts).behind t := by
  obtain ⟨hk, hl⟩ := Token.isParen_iff.mp h
  simp only [operandWith, hk, if_pos hl]

theorem operandWith_of_minus (h : t.kind = .arithmetic ∧ t.lexeme = "-") (ts : List Token) :
    operandWith grouped negated (t :: ts) = (negated ts).behind t := by
  simp only [operandWith, h.1, if_pos h.2]

theorem pair_operandWith_of_none (hleaf : t.leaf? = none) (hleft : ¬ t.isParen "(" = true)
    (hminus : ¬ (t.kind = .arithmetic ∧ t.lexeme = "-")) (ts : List Token) :
    (operandWith grouped negated (t :: ts)).pair = (zero, t :: ts) := by
  rw [Token.isParen_iff] at hleft
  unfold Token.leaf? at hleaf
  cases hk : t.kind with
  | number | string =>
    rw [hk] at hleaf
    cases hleaf
  | identifier =>
    cases hl : t.isLoopWord with
    | true => simp only [operandWith, hk, hl, if_true, pair_stay]
    | false =>
      rw [hk, hl] at hleaf
      cases hleaf
  | paren => simp only [operandWith, hk, if_neg fun hl => hleft ⟨hk, hl⟩, pair_stay]
  | arithmetic => simp only [operandWith, hk, if_neg fun hl => hminus ⟨hk, hl⟩, pair_stay]
  | keyword | relation | logic | comma | terminator | assign | unknown =>
    rw [operandWith, hk]
    rfl

/-- An operand is taken where one is wanted, if what stands in parentheses is taken behind the
parenthesis, and what is negated behind the minus. -/
theorem takes_operandWith {p : Place} {d : Nat} (hp : p.wanted = some d)
    (hgrouped : ∀ t ts, t.isParen "(" = true →
      Place.Takes p p.close (t :: ts) (grouped ts).pair)
    (hnegated : ∀ t ts, t.kind = .arithmetic ∧ t.lexeme = "-" →
      Place.Takes p p.close (t :: ts) (negated ts).pair) (ts : List Token) :
    Place.Takes p p.close ts (operandWith grouped negated ts).pair := by
  cases ts with
  | nil => exact ⟨[], rfl, rfl, .zero .nil⟩
  | cons t ts =>
    cases hleaf : t.leaf? with
    | some e =>
      rw [pair_operandWith_of_leaf hleaf]
      refine Place.takes_leaf ?_ hleaf ts
      simp only [Place.next, hp, hleaf, Option.isSome_some, if_true]
    | none =>
      by_cases hleft : t.isParen "(" = true
      · rw [operandWith_of_left hleft, pair_behind]
        exact hgrouped t ts hleft
      by_cases hminus : t.kind = .arithmetic ∧ t.lexeme = "-"
      · rw [operandWith_of_minus hminus, pair_behind]
        exact hnegated t ts hminus
      rw [pair_operandWith_of_none hleaf hleft hminus]
      refine Place.takes_zero ?_ ts
      simp only [Place.next, hp, hleaf, Option.isSome_none, Bool.false_eq_true, if_false,
        if_neg hleft, if_neg hminus, Place.close, Place.afterOperand]

theorem takes_operand (depth : Nat) : ∀ (base : Nat) (outer : List Nat) (ts : List Token),
    Place.Takes ⟨some depth, base, outer⟩ ⟨none, base, outer⟩ ts (operand depth ts).pair := by
  have hleaf : ∀ {t : Token}, t.isParen "(" = true → t.leaf? = none := fun h =>
    Token.leaf?_of_paren (Token.isParen_iff.mp h).1
  have hparen : ∀ {t : Token}, t.kind = .arithmetic → ¬ t.isParen "(" = true := fun hk h => by
    rw [(Token.isParen_iff.mp h).1] at hk
    cases hk
  induction depth with
  | zero =>
    intro base outer ts
    refine takes_operandWith rfl (fun t ts h => ?_) (fun t ts h => ?_) ts
    · refine Place.takes_zero_behind ?_ (hleaf h) ts
      simp only [Place.next, hleaf h, Option.isSome_none, Bool.false_eq_true, if_false, if_pos h]
    · have hnone := Token.leaf?_of_arithmetic h.1
      refine Place.takes_zero_behind ?_ hnone ts
      simp only [Place.next, hnone, Option.isSome_none, Bool.false_eq_true, if_false,
        if_neg (hparen h.1), if_pos h]
  | succ depth ih =>
    intro base outer ts
    refine takes_operandWith rfl (fun t ts h => ?_) (fun t ts h => ?_) ts
    · have hsum := takes_sum (ih depth (base :: outer)) ts
      rw [pair_andThen rfl]
      refine (takes_closed hsum (noSign_sum _ _)).behind ?_ (hleaf h)
      simp only [Place.next, hleaf h, Option.isSome_none, Bool.false_eq_true, if_false, if_pos h]
    · have hnone := Token.leaf?_of_arithmetic h.1
      rw [pair_map rfl]
      refine (ih base outer ts).negate.behind ?_ hnone
      simp only [Place.next, hnone, Option.isSome_none, Bool.false_eq_true, if_false,
        if_neg (hparen h.1), if_pos h]

/-- **The operands of an expression.** They are those that the scan passes, in order, and zeros.
What is left of the tokens is what the scan does not pass. -/
theorem takes_expression (ts : List Token) :
    Padded ((Place.start maxDepth).operands ts) (expression ts).value.leaves ∧
      (expression ts).rest = (Place.start maxDepth).rest ts := by
  obtain ⟨front, hoperands, hrest, hpadded⟩ := takes_sum (takes_operand maxDepth maxDepth []) ts
  -- Outside all parentheses the scan stops where a sum ends.
  have hstop : (⟨none, maxDepth, []⟩ : Place).operands (expression ts).rest = [] ∧
      (⟨none, maxDepth, []⟩ : Place).rest (expression ts).rest = (expression ts).rest := by
    have hsign : NoSign (expression ts).rest := noSign_sum _ _
    cases h : (expression ts).rest with
    | nil => exact ⟨rfl, rfl⟩
    | cons t ts' =>
      have hnext : (⟨none, maxDepth, []⟩ : Place).next t = none := by
        by_cases hright : t.isParen ")" = true
        · exact Place.afterOperand_of_right_nil hright ..
        · exact Place.afterOperand_eq_none hright (hsign t ts' h) _
      exact ⟨Place.operands_of_none hnext ts', Place.rest_of_none hnext ts'⟩
  refine ⟨?_, hstop.2.symm.trans hrest.symm⟩
  rw [Place.start, hoperands]
  show Padded (front ++ (⟨none, maxDepth, []⟩ : Place).operands (expression ts).rest) _
  rw [hstop.1, List.append_nil]
  exact hpadded

end Expr

end Stepwise
