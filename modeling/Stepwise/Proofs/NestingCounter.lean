import Stepwise.Proofs.Readers
import Stepwise.Token.Scan

/-!
# Counting the operands that are open

How deep operands may stand inside operands is an argument of the reader. A reader can also have one
counter for it, which goes up in front of what stands inside of an operand and down behind it, and
which every operand finds as the one before has left it. This is that reader. Where the counter has
come to the limit, a parenthesis or a minus is read, what it stands for is zero, and the counter is
left alone.

The counter is threaded through operands, terms and sums, and nothing but the tokens says how these
follow each other: a parenthesis need not be closed, and a minus need not have an operand. But
whatever is read puts the counter back to where it was. So each operand of a chain has the same
depth at its disposal as the one before, which is what the argument says, and both readers read the
same. From the argument it can be seen how far an expression goes to the right. The left side of an
operator is the chain so far and its right side is one item, so a chain adds one step to the right
to those in its items, a sum adds two to those in its operands, and so does an operand to those in
the operands that may stand inside of it.

## Main definitions

* `Expr.Nesting` — the counter
* `Expr.readLayer` — operands and chains of them, read with the counter
* `Expr.paths` — the ways from the root of an expression to its leaves

## Main results

* `Expr.keeps_readLayer` — the counter is put back, and both readers read the same
* `Expr.rightBounded_expressionWithin` — how often a way to a leaf goes to the right
* `Expr.nesting_leaves_no_residue` — both, and what it means for the expressions behind
-/

namespace Stepwise

open Reading

/-- Goes on behind a reading with a further one. -/
def Reading.followedBy {α β : Type} {tokens : List Token} (r : Reading α tokens)
    (further : Reading β r.rest) : Reading β tokens :=
  ⟨further.value, further.rest, further.rest_suffix.trans r.rest_suffix⟩

namespace Expr

/-! ### A reader with a counter -/

/-- How many operands are open, and how many have been at most. -/
structure Nesting where
  depth : Nat
  peak : Nat

namespace Nesting

/-- One more operand is open. -/
def enter (n : Nesting) : Nesting := ⟨n.depth + 1, max n.peak (n.depth + 1)⟩

/-- One operand less is open. -/
def leave (n : Nesting) : Nesting := ⟨n.depth - 1, n.peak⟩

end Nesting

/-- What expressions are made of: operands, and chains of something that is a layer itself. -/
inductive Layer where
  | operand
  | chained (operators : List Operator) (item : Layer)

namespace Layer

/-- Operands joined by `*` and `/`. -/
def term : Layer := chained [.mul, .div] operand

/-- Terms joined by `+` and `-`, which is a whole expression. -/
def sum : Layer := chained [.add, .sub] term

/-- How many layers of chains are above the operands. -/
def height : Layer → Nat
  | operand => 0
  | chained _ item => item.height + 1

theorem height_item_lt (operators : List Operator) (item : Layer) :
    2 * item.height + 2 < 2 * (chained operators item).height + 1 :=
  Nat.lt_succ_self _

end Layer

theorem lex_of_le {a b i j : Nat} (h : a ≤ b) (hij : i < j) :
    Prod.Lex (· < ·) (· < ·) (a, i) (b, j) := by
  rcases Nat.eq_or_lt_of_le h with rfl | hlt
  · exact Prod.Lex.right a hij
  · exact Prod.Lex.left i j hlt

mutual

/-- An operand, with the counter in front of it and behind it. -/
def readOperand (n : Nesting) : (tokens : List Token) → Reading (Expr × Nesting) tokens
  | [] => .stay (zero, n) []
  | t :: ts =>
    match t.kind with
    | .number => .skip (literal t.lexeme, n) t ts
    | .identifier =>
      if t.isLoopWord then .stay (zero, n) (t :: ts) else .skip (.name t.lexeme, n) t ts
    | .string => .skip (.text (unquote t.lexeme), n) t ts
    | .paren =>
      if t.lexeme = "(" then
        if maxDepth ≤ n.depth then .skip (zero, n) t ts
        else
          ((readLayer .sum n.enter ts).andThen fun inner rest =>
            (closed inner.1 rest).map fun e => (e, inner.2.leave)).behind t
      else .stay (zero, n) (t :: ts)
    | .arithmetic =>
      if t.lexeme = "-" then
        if maxDepth ≤ n.depth then .skip (zero, n) t ts
        else ((readOperand n.enter ts).map fun inner => (negate inner.1, inner.2.leave)).behind t
      else .stay (zero, n) (t :: ts)
    | _ => .stay (zero, n) (t :: ts)
termination_by tokens => (tokens.length, 0)

/-- An operand, or the first item of a chain and then the others. -/
def readLayer : Layer → Nesting → (tokens : List Token) → Reading (Expr × Nesting) tokens
  | .operand, n, tokens => readOperand n tokens
  | .chained operators item, n, tokens =>
    let first := readLayer item n tokens
    first.followedBy (readFurther operators item first.value.1 first.value.2 first.rest)
termination_by layer _ tokens => (tokens.length, 2 * layer.height + 1)
decreasing_by
  · exact Prod.Lex.right _ Nat.zero_lt_one
  · exact Prod.Lex.right _ (Nat.lt_of_succ_lt (Layer.height_item_lt operators item))
  · exact lex_of_le first.length_rest_le (Layer.height_item_lt operators item)

/-- The items behind the first one, as long as one of the operators follows. -/
def readFurther (operators : List Operator) (item : Layer) (left : Expr) (n : Nesting) :
    (tokens : List Token) → Reading (Expr × Nesting) tokens
  | [] => .stay (left, n) []
  | t :: ts =>
    match operatorAmong? operators t with
    | none => .stay (left, n) (t :: ts)
    | some op =>
      let right := readLayer item n ts
      (right.followedBy (readFurther operators item (.binary op left right.value.1) right.value.2
        right.rest)).behind t
termination_by tokens => (tokens.length, 2 * item.height + 2)
decreasing_by
  · exact Prod.Lex.left _ _ (Nat.lt_succ_self _)
  · exact Prod.Lex.left _ _ (Nat.lt_succ_of_le right.length_rest_le)

end

/-- A layer in which operands may stand to the given depth, read without a counter. The layer of a
whole expression is `expressionWithin`. -/
def Layer.within (depth : Nat) : Layer → Reader Expr
  | operand => Expr.operand depth
  | chained operators item => Expr.chained operators (item.within depth)

/-! ### The counter is put back -/

variable {n : Nesting} {tokens : List Token}

/-- With the counter the same is read as without it, and the counter is put back. In between it does
not go above the limit. -/
structure Keeps (n : Nesting) (plain : Expr × List Token)
    (counted : (Expr × Nesting) × List Token) : Prop where
  plain_eq : plain = (counted.1.1, counted.2)
  depth_eq : counted.1.2.depth = n.depth
  le_peak : n.peak ≤ counted.1.2.peak
  peak_le : counted.1.2.peak ≤ max n.peak maxDepth

theorem keeps_same (n : Nesting) (e : Expr) (rest : List Token) :
    Keeps n (e, rest) ((e, n), rest) :=
  ⟨rfl, rfl, Nat.le_refl _, Nat.le_max_left ..⟩

variable {plain plain' : Expr × List Token} {counted counted' : (Expr × Nesting) × List Token}

theorem Keeps.trans (h : Keeps n plain counted) (h' : Keeps counted.1.2 plain' counted') :
    Keeps n plain' counted' where
  plain_eq := h'.plain_eq
  depth_eq := h'.depth_eq.trans h.depth_eq
  le_peak := Nat.le_trans h.le_peak h'.le_peak
  peak_le := Nat.le_trans h'.peak_le (Nat.max_le.mpr ⟨h.peak_le, Nat.le_max_right ..⟩)

/-- Around what stands inside of an operand the counter goes up and down. -/
theorem Keeps.leave (h : Keeps n.enter plain counted) (hn : n.depth < maxDepth) (e : Expr)
    (rest : List Token) : Keeps n (e, rest) ((e, counted.1.2.leave), rest) where
  plain_eq := rfl
  depth_eq := by
    rw [Nesting.leave, h.depth_eq]
    rfl
  le_peak := Nat.le_trans (Nat.le_max_left ..) h.le_peak
  peak_le := by
    refine Nat.le_trans h.peak_le (Nat.max_le.mpr ⟨?_, Nat.le_max_right ..⟩)
    exact Nat.max_le.mpr ⟨Nat.le_max_left .., Nat.le_trans hn (Nat.le_max_right ..)⟩

/-- What stands inside of an operand, where the limit has been reached and where it has not. -/
theorem operand_of_le (h : maxDepth ≤ n.depth) :
    operand (maxDepth - n.depth) = operandWith (.stay zero) (.stay zero) := by
  rw [Nat.sub_eq_zero_of_le h, operand]

theorem operand_of_lt (h : n.depth < maxDepth) :
    operand (maxDepth - n.depth) =
      operandWith (fun ts => (sum (operand (maxDepth - n.enter.depth)) ts).andThen closed)
        (fun ts => (operand (maxDepth - n.enter.depth) ts).map negate) := by
  have hsucc : maxDepth - n.depth = maxDepth - n.enter.depth + 1 := by
    show maxDepth - n.depth = maxDepth - (n.depth + 1) + 1
    omega
  rw [hsucc, operand]

theorem exists_operandWith (depth : Nat) :
    ∃ grouped negated, operand depth = operandWith grouped negated := by
  cases depth with
  | zero => exact ⟨_, _, rfl⟩
  | succ depth => exact ⟨_, _, rfl⟩

/-- An operand that is a token, or is not there. -/
theorem keeps_readOperand_of_eq {e : Expr} {rest : List Token}
    (hplain : ∀ grouped negated, (operandWith grouped negated tokens).pair = (e, rest))
    (hcounted : (readOperand n tokens).pair = ((e, n), rest)) :
    Keeps n (operand (maxDepth - n.depth) tokens).pair (readOperand n tokens).pair := by
  obtain ⟨grouped, negated, hoperand⟩ := exists_operandWith (maxDepth - n.depth)
  rw [hoperand, hplain, hcounted]
  exact keeps_same n e rest

variable {t : Token} {ts : List Token}

/-- Behind an opening parenthesis, if what stands behind it puts the counter back. -/
theorem keeps_group (hkind : t.kind = .paren) (hlexeme : t.lexeme = "(")
    (hlt : n.depth < maxDepth)
    (hinner : Keeps n.enter (sum (operand (maxDepth - n.enter.depth)) ts).pair
      (readLayer .sum n.enter ts).pair) :
    Keeps n (operand (maxDepth - n.depth) (t :: ts)).pair (readOperand n (t :: ts)).pair := by
  rw [operand_of_lt hlt]
  simp only [operandWith, readOperand, hkind, if_pos hlexeme, if_neg (Nat.not_le.mpr hlt)]
  rw [pair_behind, pair_andThen hinner.plain_eq]
  exact hinner.leave hlt _ _

/-- Behind a minus, if what stands behind it puts the counter back. -/
theorem keeps_minus (hkind : t.kind = .arithmetic) (hlexeme : t.lexeme = "-")
    (hlt : n.depth < maxDepth)
    (hinner : Keeps n.enter (operand (maxDepth - n.enter.depth) ts).pair
      (readOperand n.enter ts).pair) :
    Keeps n (operand (maxDepth - n.depth) (t :: ts)).pair (readOperand n (t :: ts)).pair := by
  rw [operand_of_lt hlt]
  simp only [operandWith, readOperand, hkind, if_pos hlexeme, if_neg (Nat.not_le.mpr hlt)]
  rw [pair_behind, pair_map hinner.plain_eq]
  exact hinner.leave hlt _ _

/-- **Every reader puts the counter back, and reads the same as without it.** -/
theorem keeps_read :
    (∀ n tokens, n.depth ≤ maxDepth →
      Keeps n (operand (maxDepth - n.depth) tokens).pair (readOperand n tokens).pair) ∧
    (∀ (layer : Layer) n tokens, n.depth ≤ maxDepth →
      Keeps n (layer.within (maxDepth - n.depth) tokens).pair (readLayer layer n tokens).pair) ∧
    (∀ operators (item : Layer) left n tokens, n.depth ≤ maxDepth →
      Keeps n (chain operators (item.within (maxDepth - n.depth)) left tokens).pair
        (readFurther operators item left n tokens).pair) := by
  -- The induction is on the way in which the tokens are read. An item of a chain is read with the
  -- counter that the one before has left. That was put back, so the same depth is left for both.
  refine readOperand.mutual_induct _ _ _ ?empty ?number ?loopWord ?name ?text ?groupAtLimit ?group
    ?otherParen ?minusAtLimit ?minus ?otherSign ?other ?operand ?chained ?textEnd ?chainEnd
    ?operator
  case empty =>
    intro n hn
    exact keeps_readOperand_of_eq (fun _ _ => rfl) (by rw [readOperand]; rfl)
  case number | text =>
    intro n t ts hkind hn
    exact keeps_readOperand_of_eq (fun _ _ => by rw [operandWith, hkind]; rfl)
      (by rw [readOperand, hkind]; rfl)
  case loopWord | name | otherParen | otherSign =>
    intro n t ts hkind hlexeme hn
    exact keeps_readOperand_of_eq (fun _ _ => by simp only [operandWith, hkind, hlexeme]; rfl)
      (by simp only [readOperand, hkind, hlexeme]; rfl)
  case other =>
    intro n t ts hnumber hname htext hparen hsign hn
    have hplain : ∀ grouped negated,
        (operandWith grouped negated (t :: ts)).pair = (zero, t :: ts) := by
      intro grouped negated
      rw [operandWith]
      split <;> first | contradiction | rfl
    have hcounted : (readOperand n (t :: ts)).pair = ((zero, n), t :: ts) := by
      rw [readOperand]
      split <;> first | contradiction | rfl
    exact keeps_readOperand_of_eq hplain hcounted
  case groupAtLimit | minusAtLimit =>
    intro n t ts hkind hlexeme hlimit hn
    rw [operand_of_le hlimit]
    simp only [operandWith, readOperand, hkind, if_pos hlexeme, if_pos hlimit]
    exact keeps_same n zero ts
  case group =>
    intro n t ts hkind hlexeme hlimit ih hn
    have hlt : n.depth < maxDepth := Nat.lt_of_not_le hlimit
    exact keeps_group hkind hlexeme hlt (ih hlt)
  case minus =>
    intro n t ts hkind hlexeme hlimit ih hn
    have hlt : n.depth < maxDepth := Nat.lt_of_not_le hlimit
    exact keeps_minus hkind hlexeme hlt (ih hlt)
  case operand =>
    intro n tokens ih hn
    rw [readLayer]
    exact ih hn
  case chained =>
    intro operators item n tokens first ihfirst ihfurther hn
    have hfirst := ihfirst hn
    have hdepth : first.value.2.depth = n.depth := hfirst.depth_eq
    have hfurther := ihfurther (hdepth ▸ hn)
    rw [hdepth] at hfurther
    rw [readLayer, Layer.within, Expr.chained, pair_andThen hfirst.plain_eq]
    exact hfirst.trans hfurther
  case textEnd =>
    intro operators item left n hn
    rw [readFurther, chain]
    exact keeps_same n left []
  case chainEnd =>
    intro operators item left n t ts hop hn
    rw [pair_chain_of_none hop, readFurther, hop]
    exact keeps_same n left (t :: ts)
  case operator =>
    intro operators item left n t ts op hop right ihright ihfurther hn
    have hright := ihright hn
    have hdepth : right.value.2.depth = n.depth := hright.depth_eq
    have hfurther := ihfurther (hdepth ▸ hn)
    rw [hdepth] at hfurther
    rw [pair_chain_of_some hop hright.plain_eq, readFurther, hop]
    exact hright.trans hfurther

theorem keeps_readLayer (layer : Layer) {n : Nesting} (h : n.depth ≤ maxDepth)
    (tokens : List Token) :
    Keeps n (layer.within (maxDepth - n.depth) tokens).pair (readLayer layer n tokens).pair :=
  keeps_read.2.1 layer n tokens h

/-! ### Going to the right -/

/-- The two sides of an operator. -/
inductive Side where
  | left
  | right
deriving DecidableEq

/-- The ways from the root of an expression to its leaves. -/
def paths : Expr → List (List Side)
  | binary _ left right => left.paths.map (.left :: ·) ++ right.paths.map (.right :: ·)
  | _ => [[]]

/-- No way to a leaf goes to the right more often than that. -/
def RightBounded (bound : Nat) (e : Expr) : Prop := ∀ path ∈ e.paths, path.count .right ≤ bound

variable {bound : Nat} {item grouped negated : Reader Expr}

theorem rightBounded_of_leaf {e : Expr} (h : e.paths = [[]]) (bound : Nat) :
    RightBounded bound e := by
  intro path hpath
  rw [h, List.mem_singleton] at hpath
  rw [hpath]
  exact Nat.zero_le bound

theorem rightBounded_zero (bound : Nat) : RightBounded bound zero := rightBounded_of_leaf rfl bound

theorem rightBounded_literal (lexeme : String) (bound : Nat) :
    RightBounded bound (literal lexeme) := by
  rw [literal]
  split
  · exact rightBounded_of_leaf rfl bound
  · exact rightBounded_zero bound

theorem RightBounded.mono {e : Expr} (h : RightBounded bound e) {bound' : Nat}
    (hle : bound ≤ bound') : RightBounded bound' e :=
  fun path hpath => Nat.le_trans (h path hpath) hle

/-- Only on the right side of an operator is there one step to the right more. -/
theorem RightBounded.binary {left right : Expr} (hleft : RightBounded (bound + 1) left)
    (hright : RightBounded bound right) (op : Operator) :
    RightBounded (bound + 1) (.binary op left right) := by
  intro path hpath
  rw [paths, List.mem_append, List.mem_map, List.mem_map] at hpath
  rcases hpath with ⟨path, hmem, rfl⟩ | ⟨path, hmem, rfl⟩
  · rw [List.count_cons_of_ne (by decide)]
    exact hleft path hmem
  · rw [List.count_cons_self]
    exact Nat.succ_le_succ (hright path hmem)

/-- The left side of a chain is the chain so far, and its right side is one item. -/
theorem rightBounded_chain (hitem : ∀ ts, RightBounded bound (item ts).value)
    (operators : List Operator) (left : Expr) (tokens : List Token) :
    RightBounded (bound + 1) left →
      RightBounded (bound + 1) (chain operators item left tokens).value := by
  induction left, tokens using chain_induction operators item with
  | nil left =>
    intro hleft
    rwa [value_chain_nil]
  | stop left t ts hop =>
    intro hleft
    rwa [value_chain_of_none hop]
  | operator left t ts op hop ih =>
    intro hleft
    rw [value_chain_of_some hop]
    exact ih (hleft.binary (hitem ts) op)

/-- Each layer of chains adds one step to the right. -/
theorem rightBounded_within {depth : Nat}
    (h : ∀ ts, RightBounded bound (operand depth ts).value) (layer : Layer) (tokens : List Token) :
    RightBounded (bound + layer.height) (layer.within depth tokens).value := by
  induction layer generalizing tokens with
  | operand => exact h tokens
  | chained operators item ih =>
    have hfirst := (ih tokens).mono (Nat.le_succ (bound + item.height))
    exact rightBounded_chain ih operators (item.within depth tokens).value
      (item.within depth tokens).rest hfirst

theorem rightBounded_operandWith (hgrouped : ∀ ts, RightBounded bound (grouped ts).value)
    (hnegated : ∀ ts, RightBounded bound (negated ts).value) (tokens : List Token) :
    RightBounded bound (operandWith grouped negated tokens).value := by
  cases tokens with
  | nil => exact rightBounded_zero bound
  | cons t ts =>
    rw [operandWith]
    split
    · exact rightBounded_literal t.lexeme bound
    · split
      · exact rightBounded_zero bound
      · exact rightBounded_of_leaf rfl bound
    · exact rightBounded_of_leaf rfl bound
    · split
      · exact hgrouped ts
      · exact rightBounded_zero bound
    · split
      · exact hnegated ts
      · exact rightBounded_zero bound
    · exact rightBounded_zero bound

/-- An operand goes to the right twice for each operand that may stand around its leaves. -/
theorem rightBounded_operand (depth : Nat) (tokens : List Token) :
    RightBounded (2 * depth) (operand depth tokens).value := by
  induction depth generalizing tokens with
  | zero =>
    exact rightBounded_operandWith (fun _ => rightBounded_zero 0) (fun _ => rightBounded_zero 0)
      tokens
  | succ depth ih =>
    refine rightBounded_operandWith (fun ts => ?_) (fun ts => ?_) tokens
    · rw [value_andThen, value_closed]
      exact rightBounded_within ih .sum ts
    · rw [value_map, negate]
      exact ((rightBounded_zero _).binary (ih ts) .sub).mono (Nat.le_succ _)

/-- **How often a way to a leaf goes to the right.** -/
theorem rightBounded_expressionWithin (depth : Nat) (tokens : List Token) :
    RightBounded (2 * depth + 2) (expressionWithin depth tokens).value :=
  rightBounded_within (rightBounded_operand depth) .sum tokens

/-- The bound is reached. -/
example : [Side.right, .right] ∈
    (expressionWithin 0 (Token.scan "1 + 2 * 3")).value.paths := by decide +kernel

/-! ### One counter for all expressions -/

/-- Reads an expression at each of the given places, one after the other. -/
def readEach (n : Nesting) : List (List Token) → List Expr × Nesting
  | [] => ([], n)
  | tokens :: places =>
    let reading := readLayer .sum n tokens
    let others := readEach reading.value.2 places
    (reading.value.1 :: others.1, others.2)

/-- **What was read before does not matter.** -/
theorem readEach_eq {n : Nesting} (h : n.depth ≤ maxDepth) (places : List (List Token)) :
    (readEach n places).1 =
        places.map (fun tokens => (expressionWithin (maxDepth - n.depth) tokens).value) ∧
      (readEach n places).2.depth = n.depth ∧
      (readEach n places).2.peak ≤ max n.peak maxDepth := by
  induction places generalizing n with
  | nil => exact ⟨rfl, rfl, Nat.le_max_left ..⟩
  | cons tokens places ih =>
    have hfirst := keeps_readLayer .sum h tokens
    have hdepth : (readLayer .sum n tokens).value.2.depth = n.depth := hfirst.depth_eq
    obtain ⟨hvalues, hothers, hpeak⟩ := ih (hdepth ▸ h)
    rw [hdepth] at hvalues hothers
    refine ⟨?_, hothers, ?_⟩
    · rw [readEach, List.map_cons, hvalues]
      exact congrArg (· :: _) (congrArg Prod.fst hfirst.plain_eq).symm
    · exact Nat.le_trans hpeak (Nat.max_le.mpr ⟨hfirst.peak_le, Nat.le_max_right ..⟩)

/-- **Nesting is bounded and leaves nothing behind.** From any counter up to the limit an expression
is read, whatever the tokens are. The counter is put back, does not go above the limit in between,
and bounds how often a way to a leaf goes to the right. What is read is what the depth that is left
allows, for this expression and for all that are read with the same counter behind it. -/
theorem nesting_leaves_no_residue (d : Nat) (h : d ≤ maxDepth) (tokens : List Token) :
    let reading := readLayer .sum ⟨d, d⟩ tokens
    reading.value.2.depth = d ∧ d ≤ reading.value.2.peak ∧ reading.value.2.peak ≤ maxDepth ∧
      (∀ path ∈ reading.value.1.paths, path.count .right ≤ 2 * (maxDepth - d) + 2) ∧
      (expressionWithin (maxDepth - d) tokens).pair = (reading.value.1, reading.rest) ∧
      ∀ places,
        (readEach reading.value.2 places).1 =
            places.map (fun ts => (expressionWithin (maxDepth - d) ts).value) ∧
          (readEach reading.value.2 places).2.depth = d ∧
          (readEach reading.value.2 places).2.peak ≤ maxDepth := by
  intro reading
  have hkeeps : Keeps ⟨d, d⟩ (expressionWithin (maxDepth - d) tokens).pair reading.pair :=
    keeps_readLayer .sum h tokens
  have hdepth : reading.value.2.depth = d := hkeeps.depth_eq
  have hpeak : reading.value.2.peak ≤ maxDepth :=
    Nat.le_trans hkeeps.peak_le (Nat.max_le.mpr ⟨h, Nat.le_refl _⟩)
  refine ⟨hdepth, hkeeps.le_peak, hpeak, ?_, hkeeps.plain_eq, fun places => ?_⟩
  · have hbound := rightBounded_expressionWithin (maxDepth - d) tokens
    have hvalue : (expressionWithin (maxDepth - d) tokens).value = reading.value.1 :=
      congrArg Prod.fst hkeeps.plain_eq
    rwa [hvalue] at hbound
  · have heach := readEach_eq (hdepth ▸ h : reading.value.2.depth ≤ maxDepth) places
    rw [hdepth, Nat.max_eq_right hpeak] at heach
    exact heach

/-- One below the limit there is room for one parenthesis, also behind an expression that has left
two of them open. -/
theorem nesting_leaves_no_residue_unclosed :
    63 ≤ maxDepth ∧
      (readLayer .sum ⟨63, 63⟩ (Token.scan "1 + 2 * (3 - ((4")).value.2.depth = 63 ∧
      (readEach (readLayer .sum ⟨63, 63⟩ (Token.scan "1 + 2 * (3 - ((4")).value.2
        [Token.scan "(5)", Token.scan "- x"]).1.map display = ["5", "(0 - x)"] := by
  have hlimit : 63 ≤ maxDepth := by decide
  obtain ⟨hdepth, -, -, -, -, hbehind⟩ :=
    nesting_leaves_no_residue 63 hlimit (Token.scan "1 + 2 * (3 - ((4")
  refine ⟨hlimit, hdepth, ?_⟩
  rw [(hbehind _).1]
  decide +kernel

end Expr

end Stepwise
