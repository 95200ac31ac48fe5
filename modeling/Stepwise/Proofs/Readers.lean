import Stepwise.Expr.OfTokens
import Stepwise.Proofs.Grammar

/-!
# What reading an expression leaves

The reader of expressions knows nothing of where a statement ends. It stops where it finds no
operand or no operator, and it closes parentheses that it has opened, with whatever closing
parenthesis comes next. Read behind the opening parenthesis of a loop head, it might close that one
too and go on into the body.

It does not, and the reason is one of counting. Where a run closes at least as many parentheses as
it opens, everything the reader opens inside the run it also closes inside the run. So it stops in
front of the end of the run at the latest. `Reading.StopsAt` says so, for a reader behind a number
of parentheses that it still has to close, and the combinators keep it.

What stands behind the end of the run is then never looked at, which is part of the statement: the
value is the same whatever follows.

## Main definitions

* `Reading.StopsAt` — a reader that stays in front of the end of a run

## Main results

* `Expr.pair_sum_of_stop`, `Expr.pair_sum_of_binary` — sums of one operand and of two
* `Expr.stopsAt_expression`, `Expr.stopsAt_condition` — expressions and conditions do
-/

namespace Stepwise

namespace Reading

variable {α β : Type} {tokens : List Token} {b : Token} {depth : Int}

/-- What was read and what is left, without the proof that it is an end of the tokens. -/
def pair (r : Reading α tokens) : α × List Token := (r.value, r.rest)

@[simp] theorem pair_stay (value : α) (tokens : List Token) :
    (stay value tokens).pair = (value, tokens) := rfl

@[simp] theorem pair_skip (value : α) (t : Token) (tokens : List Token) :
    (skip value t tokens).pair = (value, tokens) := rfl

@[simp] theorem pair_behind (t : Token) (r : Reading α tokens) : (r.behind t).pair = r.pair := rfl

theorem pair_andThen {r : Reading α tokens} {value : α} {rest : List Token}
    (h : r.pair = (value, rest)) (next : α → Reader β) :
    (r.andThen next).pair = (next value rest).pair := by
  rw [pair, Prod.mk.injEq] at h
  rw [← h.1, ← h.2]
  rfl

theorem pair_map {r : Reading α tokens} {value : α} {rest : List Token}
    (h : r.pair = (value, rest)) (f : α → β) : (r.map f).pair = (f value, rest) := by
  rw [pair, Prod.mk.injEq] at h
  rw [← h.1, ← h.2]
  rfl

/-- A token that ends a run: the end of the statement or a closing parenthesis. -/
def IsEnd (b : Token) : Prop := b.kind = .terminator ∨ b.isParen ")" = true

/-- Where `depth` parentheses are open that are closed inside the run in front of `b`, the reader
reads inside the run, closes no other parentheses, and does not look behind `b`. -/
def StopsAt (b : Token) (depth : Int) (r : Reader α) : Prop :=
  ∀ run, depth + Token.excess run ≤ 0 → ∃ value read left,
    run = read ++ left ∧ 0 ≤ depth + Token.excess read ∧
      ∀ rest, (r (run ++ b :: rest)).pair = (value, left ++ b :: rest)

theorem stopsAt_stay (b : Token) (hdepth : 0 ≤ depth) (value : α) :
    StopsAt b depth (stay value) := by
  intro run _
  refine ⟨value, [], run, rfl, ?_, fun rest => rfl⟩
  rwa [Token.excess_nil, Int.add_zero]

theorem StopsAt.map {r : Reader α} (h : StopsAt b depth r) (f : α → β) :
    StopsAt b depth fun tokens => (r tokens).map f := by
  intro run hrun
  obtain ⟨value, read, left, hsplit, hread, hpair⟩ := h run hrun
  exact ⟨f value, read, left, hsplit, hread, fun rest => pair_map (hpair rest) f⟩

theorem StopsAt.andThen {r : Reader α} {next : α → Reader β} (h : StopsAt b 0 r)
    (hdepth : 0 ≤ depth) (hnext : ∀ value, StopsAt b depth (next value)) :
    StopsAt b depth fun tokens => (r tokens).andThen next := by
  intro run hrun
  obtain ⟨value, read, left, rfl, hread, hpair⟩ := h run (by omega)
  rw [Token.excess_append] at hrun
  obtain ⟨value', read', left', rfl, hread', hpair'⟩ := hnext value left (by omega)
  refine ⟨value', read ++ read', left', by rw [List.append_assoc], ?_, fun rest => ?_⟩
  · rw [Token.excess_append]
    omega
  · rw [pair_andThen (hpair rest), hpair']

/-- A reader that reads a token and goes on behind it. -/
theorem StopsAt.behind {r : Reader α} (h : StopsAt b depth r) {t : Token} {depth' : Int}
    (ht : depth = depth' + t.weight) {run : List Token}
    (hrun : depth' + Token.excess (t :: run) ≤ 0) :
    ∃ value read left, t :: run = read ++ left ∧ 0 ≤ depth' + Token.excess read ∧
      ∀ rest, ((r (run ++ b :: rest)).behind t).pair = (value, left ++ b :: rest) := by
  rw [Token.excess_cons] at hrun
  obtain ⟨value, read, left, rfl, hread, hpair⟩ := h run (by omega)
  refine ⟨value, t :: read, left, rfl, ?_, fun rest => hpair rest⟩
  rw [Token.excess_cons]
  omega

end Reading

namespace Expr

open Reading

variable {b : Token} {operators : List Operator} {item : Reader Expr}

theorem operatorAmong?_of_isEnd (hb : IsEnd b) : operatorAmong? operators b = none := by
  have hkind : b.kind ≠ .arithmetic := by
    rcases hb with hb | hb
    · rw [hb]
      decide
    · rw [(Token.isParen_iff.mp hb).1]
      decide
  rw [operatorAmong?, if_neg hkind]

theorem kind_of_operatorAmong? {t : Token} {op : Operator}
    (h : operatorAmong? operators t = some op) : t.kind = .arithmetic := by
  rw [operatorAmong?] at h
  split at h
  · assumption
  · cases h

theorem pair_chain_of_none {left : Expr} {t : Token} {ts : List Token}
    (h : operatorAmong? operators t = none) :
    (chain operators item left (t :: ts)).pair = (left, t :: ts) := by
  rw [pair, value_chain_of_none h, rest_chain_of_none h]

theorem pair_chain_of_some {left right : Expr} {t : Token} {ts rest : List Token} {op : Operator}
    (h : operatorAmong? operators t = some op) (hright : (item ts).pair = (right, rest)) :
    (chain operators item left (t :: ts)).pair =
      (chain operators item (.binary op left right) rest).pair := by
  rw [pair, Prod.mk.injEq] at hright
  rw [pair, value_chain_of_some h, rest_chain_of_some h, hright.1, hright.2]
  rfl

/-- Where no operator follows, a chain has one item. -/
theorem pair_chain_of_stop {ts : List Token}
    (h : ∀ t ts', ts = t :: ts' → t.kind ≠ .arithmetic) (left : Expr) :
    (chain operators item left ts).pair = (left, ts) := by
  cases ts with
  | nil => rw [chain, pair_stay]
  | cons t ts =>
    have hnone : operatorAmong? operators t = none := by
      rw [operatorAmong?, if_neg (h t ts rfl)]
    exact pair_chain_of_none hnone

theorem pair_chained_of_stop {tokens ts : List Token} {e : Expr}
    (h : ∀ t ts', ts = t :: ts' → t.kind ≠ .arithmetic) (hitem : (item tokens).pair = (e, ts)) :
    (chained operators item tokens).pair = (e, ts) := by
  rw [chained, pair_andThen hitem, pair_chain_of_stop h]

/-- Where no operator follows, a sum is an operand. -/
theorem pair_sum_of_stop {tokens ts : List Token} {e : Expr}
    (h : ∀ t ts', ts = t :: ts' → t.kind ≠ .arithmetic) (hitem : (item tokens).pair = (e, ts)) :
    (sum item tokens).pair = (e, ts) :=
  pair_chained_of_stop h (pair_chained_of_stop h hitem)

theorem operatorAmong?_of_symbol {t : Token} {op : Operator}
    (h : t.kind = .arithmetic ∧ t.lexeme = op.symbol) :
    operatorAmong? operators t = if op ∈ operators then some op else none := by
  rw [operatorAmong?, if_pos h.1, h.2, Operator.ofLexeme?_symbol]
  by_cases hmem : op ∈ operators
  · simp [hmem]
  · simp [hmem]

/-- Two operands with an operator between them are a sum, as long as no other follows. -/
theorem pair_sum_of_binary {op : Operator} {t : Token} {tokens ts behind : List Token}
    {left right : Expr} (hop : op ∈ [Operator.add, .sub, .mul, .div])
    (ht : t.kind = .arithmetic ∧ t.lexeme = op.symbol)
    (hleft : (item tokens).pair = (left, t :: ts)) (hright : (item ts).pair = (right, behind))
    (hbehind : ∀ t' ts', behind = t' :: ts' → t'.kind ≠ .arithmetic) :
    (sum item tokens).pair = (.binary op left right, behind) := by
  by_cases hproduct : op ∈ [Operator.mul, .div]
  · have hchain : (chained [.mul, .div] item tokens).pair = (.binary op left right, behind) := by
      have hsome : operatorAmong? [.mul, .div] t = some op := by
        rw [operatorAmong?_of_symbol ht, if_pos hproduct]
      rw [chained, pair_andThen hleft, pair_chain_of_some hsome hright,
        pair_chain_of_stop hbehind]
    exact pair_chained_of_stop hbehind hchain
  · have hsum : op ∈ [Operator.add, .sub] := by
      revert hop hproduct
      cases op <;> decide
    have hitem : (chained [.mul, .div] item tokens).pair = (left, t :: ts) := by
      have hnone : operatorAmong? [.mul, .div] t = none := by
        rw [operatorAmong?_of_symbol ht, if_neg hproduct]
      rw [chained, pair_andThen hleft, pair_chain_of_none hnone]
    have hsome : operatorAmong? [.add, .sub] t = some op := by
      rw [operatorAmong?_of_symbol ht, if_pos hsum]
    rw [sum, chained, pair_andThen hitem,
      pair_chain_of_some hsome (pair_chained_of_stop hbehind hright), pair_chain_of_stop hbehind]

theorem kind_ne_arithmetic_of_right {closing : Token} (h : closing.isParen ")" = true)
    (ts : List Token) : ∀ t' ts', closing :: ts = t' :: ts' → t'.kind ≠ .arithmetic := by
  intro t' ts' heq
  cases heq
  exact ne_of_eq_of_ne (Token.isParen_iff.mp h).1 (by decide)

theorem stopsAt_chain (hb : IsEnd b) (hitem : StopsAt b 0 item) (left : Expr) :
    StopsAt b 0 (chain operators item left) := by
  intro run
  induction hn : run.length using Nat.strongRecOn generalizing run left with
  | ind n ih =>
    subst hn
    intro hrun
    cases run with
    | nil =>
      exact ⟨left, [], [], rfl, by decide, fun rest =>
        pair_chain_of_none (operatorAmong?_of_isEnd hb)⟩
    | cons t run =>
      cases hop : operatorAmong? operators t with
      | none => exact ⟨left, [], t :: run, rfl, by decide, fun rest => pair_chain_of_none hop⟩
      | some op =>
        have hweight := Token.weight_of_kind (kind_of_operatorAmong? hop) (by decide)
        rw [Token.excess_cons, hweight] at hrun
        obtain ⟨right, read, behind, rfl, hread, hpair⟩ := hitem run (by omega)
        rw [Token.excess_append] at hrun
        have hshorter : behind.length < (t :: (read ++ behind)).length := by
          rw [List.length_cons, List.length_append]
          omega
        obtain ⟨value, read', left', rfl, hread', hpair'⟩ :=
          ih _ hshorter (.binary op left right) behind rfl (by omega)
        refine ⟨value, t :: (read ++ read'), left', by simp, ?_, fun rest => ?_⟩
        · rw [Token.excess_cons, Token.excess_append, hweight]
          omega
        · rw [List.cons_append, pair_chain_of_some hop (hpair rest), hpair']

theorem stopsAt_chained (hb : IsEnd b) (hitem : StopsAt b 0 item) :
    StopsAt b 0 (chained operators item) :=
  hitem.andThen (Int.le_refl 0) fun value => stopsAt_chain hb hitem value

theorem stopsAt_sum (hb : IsEnd b) (hitem : StopsAt b 0 item) : StopsAt b 0 (sum item) :=
  stopsAt_chained hb (stopsAt_chained hb hitem)

theorem value_closed (e : Expr) (ts : List Token) : (closed e ts).value = e := by
  cases ts with
  | nil => rfl
  | cons t ts =>
    rw [closed]
    split
    · rfl
    · rfl

/-- Behind an open parenthesis the run has not come to its end. -/
theorem stopsAt_closed (b : Token) (e : Expr) : StopsAt b 1 (closed e) := by
  intro run hrun
  cases run with
  | nil => cases hrun
  | cons t run =>
    by_cases ht : t.isParen ")" = true
    · refine ⟨e, [t], run, rfl, ?_, fun rest => ?_⟩
      · rw [Token.excess_cons, Token.weight_of_right ht]
        decide
      · rw [List.cons_append, closed, if_pos ht, pair_skip]
    · refine ⟨e, [], t :: run, rfl, by decide, fun rest => ?_⟩
      rw [List.cons_append, closed, if_neg ht, pair_stay]

/-- An operand is a token, begins with a parenthesis or a minus, or is not there. -/
theorem operandWith_cases (grouped negated : Reader Expr) (t : Token) :
    (∃ e, t.kind ≠ .paren ∧ t.isLoopWord = false ∧
        ∀ ts, (operandWith grouped negated (t :: ts)).pair = (e, ts)) ∨
      (t.isParen "(" = true ∧
        ∀ ts, operandWith grouped negated (t :: ts) = (grouped ts).behind t) ∨
      (t.kind = .arithmetic ∧
        ∀ ts, operandWith grouped negated (t :: ts) = (negated ts).behind t) ∨
      ∀ ts, (operandWith grouped negated (t :: ts)).pair = (zero, t :: ts) := by
  cases hk : t.kind with
  | number =>
    refine .inl ⟨literal t.lexeme, by decide, ?_, fun ts => by rw [operandWith, hk]; rfl⟩
    exact Token.not_isLoopWord_of_kind hk (by decide)
  | string =>
    refine .inl ⟨text (unquote t.lexeme), by decide, ?_, fun ts => by rw [operandWith, hk]; rfl⟩
    exact Token.not_isLoopWord_of_kind hk (by decide)
  | identifier =>
    cases hl : t.isLoopWord with
    | true => exact .inr (.inr (.inr fun ts => by simp [operandWith, hk, hl]))
    | false => exact .inl ⟨name t.lexeme, by decide, rfl, fun ts => by simp [operandWith, hk, hl]⟩
  | paren =>
    by_cases hleft : t.lexeme = "("
    · refine .inr (.inl ⟨Token.isParen_iff.mpr ⟨hk, hleft⟩, fun ts => ?_⟩)
      simp [operandWith, hk, hleft]
    · exact .inr (.inr (.inr fun ts => by simp [operandWith, hk, hleft]))
  | arithmetic =>
    by_cases hminus : t.lexeme = "-"
    · exact .inr (.inr (.inl ⟨rfl, fun ts => by simp [operandWith, hk, hminus]⟩))
    · exact .inr (.inr (.inr fun ts => by simp [operandWith, hk, hminus]))
  | keyword | relation | logic | comma | terminator | assign | unknown =>
    exact .inr (.inr (.inr fun ts => by rw [operandWith, hk]; rfl))

theorem stopsAt_operandWith {grouped negated : Reader Expr} (hb : IsEnd b)
    (hgrouped : StopsAt b 1 grouped) (hnegated : StopsAt b 0 negated) :
    StopsAt b 0 (operandWith grouped negated) := by
  intro run hrun
  cases run with
  | nil =>
    refine ⟨zero, [], [], rfl, by decide, fun rest => ?_⟩
    rcases hb with hb | hb
    · rw [List.nil_append, operandWith, hb]
      rfl
    · obtain ⟨hk, hl⟩ := Token.isParen_iff.mp hb
      have hleft : ¬ b.lexeme = "(" := by
        rw [hl]
        decide
      simp only [List.nil_append, operandWith, hk, if_neg hleft, pair_stay]
  | cons t run =>
    rcases operandWith_cases grouped negated t with
      ⟨e, hparen, -, hskip⟩ | ⟨hleft, hgroup⟩ | ⟨hminus, hnegate⟩ | hstay
    · refine ⟨e, [t], run, rfl, ?_, fun rest => hskip _⟩
      rw [Token.excess_cons, Token.weight_of_kind_ne hparen]
      decide
    · have hopen : (1 : Int) = 0 + t.weight := by
        rw [Token.weight_of_left hleft]
        rfl
      simp only [List.cons_append, hgroup]
      exact hgrouped.behind hopen hrun
    · have hflat : (0 : Int) = 0 + t.weight := by
        rw [Token.weight_of_kind hminus (by decide)]
        rfl
      simp only [List.cons_append, hnegate]
      exact hnegated.behind hflat hrun
    · exact ⟨zero, [], t :: run, rfl, by decide, fun rest => hstay _⟩

theorem stopsAt_operand (hb : IsEnd b) (depth : Nat) : StopsAt b 0 (operand depth) := by
  induction depth with
  | zero =>
    exact stopsAt_operandWith hb (stopsAt_stay b (by decide) zero) (stopsAt_stay b (by decide) zero)
  | succ depth ih =>
    exact stopsAt_operandWith hb
      ((stopsAt_sum hb ih).andThen (by decide) fun e => stopsAt_closed b e) (ih.map negate)

theorem stopsAt_expression (hb : IsEnd b) : StopsAt b 0 expression :=
  stopsAt_sum hb (stopsAt_operand hb maxDepth)

theorem joinsCondition_of_isEnd (hb : IsEnd b) : joinsCondition b = false := by
  rcases hb with hb | hb
  · rw [joinsCondition, hb]
    rfl
  · rw [joinsCondition, (Token.isParen_iff.mp hb).1]
    rfl

theorem kind_of_joinsCondition {t : Token} (h : joinsCondition t = true) : t.kind ≠ .paren := by
  intro hk
  rw [joinsCondition, hk] at h
  exact absurd h (by decide)

theorem not_isLoopWord_of_joinsCondition {t : Token} (h : joinsCondition t = true) :
    t.isLoopWord = false := by
  cases hk : t.kind with
  | keyword | identifier =>
    rw [joinsCondition, hk] at h
    exact absurd h (by decide)
  | _ => exact Token.not_isLoopWord_of_kind hk (by decide)

theorem stopsAt_condition (hb : IsEnd b) : StopsAt b 0 condition := by
  refine (stopsAt_expression hb).andThen (Int.le_refl 0) fun left run hrun => ?_
  cases run with
  | nil =>
    refine ⟨left, [], [], rfl, by decide, fun rest => ?_⟩
    simp only [List.nil_append, joinsCondition_of_isEnd hb]
    rfl
  | cons t run =>
    cases hjoin : joinsCondition t with
    | false =>
      refine ⟨left, [], t :: run, rfl, by decide, fun rest => ?_⟩
      simp only [List.cons_append, hjoin]
      rfl
    | true =>
      have hflat : (0 : Int) = 0 + t.weight := by
        rw [Token.weight_of_kind_ne (kind_of_joinsCondition hjoin)]
        rfl
      simp only [List.cons_append, hjoin, if_true]
      exact ((stopsAt_expression hb).map _).behind hflat hrun

end Expr

end Stepwise
