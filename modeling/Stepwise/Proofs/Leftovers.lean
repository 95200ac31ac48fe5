import Stepwise.Proofs.Readers
import Stepwise.Stmt.OfTokens

/-!
# What is left of a statement

The checker and the reader find the ends of statements in different ways. The checker counts
parentheses. The reader of a loop head stops at the first parenthesis that brings its own count to
zero, which may come early, the reader of arguments stops at the first closing parenthesis
whatsoever, and what they leave is passed over token by token until something begins a clause.

So there are two things to know of each reader: that it comes to the end of the statement at the
latest, and which tokens in front of that end it leaves. And there is one thing to know of what is
left. It is `Inert` if it has no word in it that begins a clause, no sign that would make an
assignment, and does not end in a name, which the token behind it could assign to. Inert tokens are
passed over.

## Main definitions

* `Clause.Inert` — tokens in which no clause begins

## Main results

* `Clause.Inert.ofTokens` — inert tokens are passed over
* `Clause.arguments_induction` — induction on the way in which arguments are read
* `Clause.pair_skipPastClose`, `Clause.pair_skipPastTerminator`, `Clause.pair_arguments` — the
  readers that look for the end of something stop at the end of the statement at the latest
-/

namespace Stepwise

open Reading

namespace Clause

variable {t : Token} {ts rest : List Token}

/-! ### Tokens in which no clause begins -/

/-- No clause begins with the token, and it does not make an assignment of the one before. -/
structure IsQuiet (t : Token) : Prop where
  loopWord : t.isLoopWord = false
  write : t.isWord "write" = false
  sign : t.kind ≠ .assign

/-- No clause begins among the tokens, and none begins with the last because of what follows. -/
structure Inert (tokens : List Token) : Prop where
  quiet : ∀ t ∈ tokens, IsQuiet t
  last : ∀ t, tokens.getLast? = some t → t.kind ≠ .identifier

theorem Inert.of_suffix {tokens tokens' : List Token} (h : Inert tokens) (hs : tokens' <:+ tokens) :
    Inert tokens' := by
  obtain ⟨front, rfl⟩ := hs
  refine ⟨fun t ht => h.quiet t (List.mem_append_right _ ht), fun t ht => h.last t ?_⟩
  rw [List.getLast?_append, ht, Option.some_or]

theorem inert_append_singleton {tokens : List Token} (h : ∀ t ∈ tokens, IsQuiet t)
    (ht : IsQuiet t) (hname : t.kind ≠ .identifier) : Inert (tokens ++ [t]) := by
  refine ⟨fun t' ht' => ?_, fun t' ht' => ?_⟩
  · rcases List.mem_append.mp ht' with ht' | ht'
    · exact h t' ht'
    · rwa [List.mem_singleton.mp ht']
  · rw [List.getLast?_concat, Option.some.injEq] at ht'
    rwa [← ht']

theorem isWord_while_of_not_isLoopWord (h : t.isLoopWord = false) :
    t.isWord "while" = false ∧ t.isWord "end-while" = false := by
  rwa [Token.isLoopWord, Bool.or_eq_false_iff] at h

theorem ofTokens_of_pair {c : Option Clause} (h : (read Int t ts).pair = (c, rest)) :
    ofTokens Int (t :: ts) = c.toList ++ ofTokens Int rest := by
  rw [pair, Prod.mk.injEq] at h
  rw [ofTokens_cons, h.1, h.2]

theorem pair_read_of_isQuiet (h : IsQuiet t) (hassign : assignment? t ts = none) :
    (read Int t ts).pair = (none, ts) := by
  obtain ⟨hwhile, hend⟩ := isWord_while_of_not_isLoopWord h.loopWord
  rw [read, hwhile, hend, hassign, h.write]
  rfl

theorem assignment?_eq_none
    (h : ∀ t' ts', ts = t' :: ts' → t.kind ≠ .identifier ∨ t'.kind ≠ .assign) :
    assignment? t ts = none := by
  cases ts with
  | nil => rfl
  | cons t' ts' =>
    rw [assignment?, if_neg]
    rintro ⟨hname, -, hsign⟩
    exact (h t' ts' rfl).elim (absurd hname) (absurd hsign)

theorem assignment?_eq_some {target sign : Token}
    (htarget : target.kind = .identifier ∧ target.isLoopWord = false) (hsign : sign.kind = .assign)
    (ts : List Token) :
    assignment? target (sign :: ts) =
      some (((assignment ts).map (.assign target.lexeme)).behind sign) :=
  if_pos ⟨htarget.1, Bool.eq_false_iff.mp htarget.2, hsign⟩

/-- Inert tokens are passed over. -/
theorem Inert.ofTokens {tokens : List Token} (h : Inert tokens) (rest : List Token) :
    Clause.ofTokens Int (tokens ++ rest) = Clause.ofTokens Int rest := by
  induction tokens with
  | nil => rfl
  | cons t tokens ih =>
    have hassign : assignment? t (tokens ++ rest) = none := by
      refine assignment?_eq_none fun t' ts' hts => ?_
      cases tokens with
      | nil => exact .inl (h.last t rfl)
      | cons t'' tokens =>
        cases hts
        exact .inr (h.quiet t' (List.mem_cons_of_mem _ List.mem_cons_self)).sign
    have hread := pair_read_of_isQuiet (h.quiet t List.mem_cons_self) hassign
    rw [List.cons_append, ofTokens_of_pair hread, ih (h.of_suffix (List.suffix_cons ..))]
    rfl

/-! ### Heads of loops -/

/-- What `skipPastClose` does at a token at which it does not stop. -/
theorem pair_skipPastClose_cons {depth : Int} (hloop : t.isLoopWord = false)
    (hstop : t.kind ≠ .terminator) :
    (skipPastClose depth (t :: ts)).pair =
      if t.isParen ")" = true ∧ depth = 1 then ((), ts)
      else (skipPastClose (depth + t.weight) ts).pair := by
  have hgoes : ¬ (t.isLoopWord = true ∨ t.kind = .terminator) := by
    rw [hloop]
    exact fun h => h.elim Bool.false_ne_true hstop
  rw [skipPastClose, if_neg hgoes]
  by_cases hleft : t.isParen "(" = true
  · have hright : ¬ (t.isParen ")" = true ∧ depth = 1) := fun h => by
      have hlexeme := (Token.isParen_iff.mp hleft).2
      rw [(Token.isParen_iff.mp h.1).2] at hlexeme
      exact absurd hlexeme (by decide)
    rw [if_pos hleft, if_neg hright, Token.weight_of_left hleft]
    rfl
  rw [if_neg hleft]
  by_cases hright : t.isParen ")" = true
  · have hzero : Depth.isZero (Depth.down depth) = true ↔ depth = 1 := by
      rw [Depth.isZero_int, Depth.down_int]
      omega
    rw [if_pos hright, Token.weight_of_right hright]
    by_cases hone : depth = 1
    · rw [if_pos (show t.isParen ")" = true ∧ depth = 1 from ⟨hright, hone⟩)]
      simp only [if_pos (hzero.mpr hone), pair_skip]
    · rw [if_neg (show ¬ (t.isParen ")" = true ∧ depth = 1) from fun h => hone h.2)]
      simp only [if_neg (mt hzero.mp hone), pair_behind]
      rfl
  · rw [if_neg hright, if_neg fun h => hright h.1, Token.weight, if_neg hleft, if_neg hright,
      Int.add_zero]
    rfl

/-- Behind a condition, the reader of a loop head passes over what is left of it up to its closing
parenthesis at the latest. -/
theorem pair_skipPastClose {left : List Token} {right : Token} {depth : Int}
    (hleft : ∀ t ∈ left, t.isLoopWord = false ∧ t.kind ≠ .terminator)
    (hright : right.isParen ")" = true) (hdepth : 0 < depth)
    (hexcess : depth + Token.excess left ≤ 1) :
    ∃ behind, behind <:+ left ++ [right] ∧
      ∀ rest, (skipPastClose depth (left ++ right :: rest)).pair = ((), behind ++ rest) := by
  induction left generalizing depth with
  | nil =>
    have hkind := (Token.isParen_iff.mp hright).1
    have hloop := Token.not_isLoopWord_of_kind hkind (by decide)
    rw [Token.excess_nil] at hexcess
    refine ⟨[], List.nil_suffix, fun rest => ?_⟩
    rw [List.nil_append, pair_skipPastClose_cons hloop (by rw [hkind]; decide),
      if_pos ⟨hright, by omega⟩]
    rfl
  | cons t left ih =>
    rw [List.forall_mem_cons] at hleft
    rw [Token.excess_cons] at hexcess
    by_cases hclose : t.isParen ")" = true ∧ depth = 1
    · refine ⟨left ++ [right], List.suffix_cons .., fun rest => ?_⟩
      rw [List.cons_append, pair_skipPastClose_cons hleft.1.1 hleft.1.2, if_pos hclose,
        List.append_assoc]
      rfl
    · have hpos : 0 < depth + t.weight := by
        by_cases hright : t.isParen ")" = true
        · rw [Token.weight_of_right hright]
          have hne : depth ≠ 1 := fun h => hclose ⟨hright, h⟩
          omega
        · have hweight : 0 ≤ t.weight := by
            rw [Token.weight, if_neg hright]
            split <;> decide
          omega
      obtain ⟨behind, hsuffix, hpair⟩ := ih hleft.2 hpos (by omega)
      refine ⟨behind, hsuffix.trans (List.suffix_cons ..), fun rest => ?_⟩
      rw [List.cons_append, pair_skipPastClose_cons hleft.1.1 hleft.1.2, if_neg hclose, hpair]

/-! ### Assignments and arguments -/

/-- A token that may stand inside a statement: it ends none and begins no other. -/
structure IsInner (t : Token) : Prop where
  loopWord : t.isLoopWord = false
  terminator : t.kind ≠ .terminator
  keyword : t.kind ≠ .keyword

theorem pair_skipPastTerminator {left : List Token} {stop : Token} (hleft : ∀ t ∈ left, IsInner t)
    (hstop : stop.kind = .terminator) (rest : List Token) :
    (skipPastTerminator (left ++ stop :: rest)).pair = ((), rest) := by
  induction left with
  | nil => rw [List.nil_append, skipPastTerminator, if_pos hstop, pair_skip]
  | cons t left ih =>
    rw [List.forall_mem_cons] at hleft
    have hgoes : ¬ (t.kind = .keyword ∨ t.isLoopWord = true) := by
      rw [hleft.1.loopWord]
      exact fun h => h.elim hleft.1.keyword Bool.false_ne_true
    rw [List.cons_append, skipPastTerminator, if_neg hleft.1.terminator, if_neg hgoes, pair_behind,
      ih hleft.2]

theorem endsArguments_of_isInner (h : IsInner t) : endsArguments t = false := by
  rw [endsArguments, h.loopWord, beq_eq_false_iff_ne.mpr h.terminator,
    beq_eq_false_iff_ne.mpr h.keyword]
  rfl

theorem pair_arguments_of_right (h : t.isParen ")" = true) :
    (arguments (t :: ts)).pair = ([], ts) := by
  rw [arguments, if_pos h, pair_skip]

theorem pair_arguments_of_comma (h : t.kind = .comma) :
    (arguments (t :: ts)).pair = (arguments ts).pair := by
  have hright : ¬ t.isParen ")" = true := fun hright => by
    rw [(Token.isParen_iff.mp hright).1] at h
    cases h
  rw [arguments, if_neg hright, if_pos h, pair_behind]

/-- An argument, and the arguments behind it. Where no expression is read, the token in front is
passed over. -/
theorem pair_arguments_of_expression {value : Expr} {behind : List Token}
    (hright : ¬ t.isParen ")" = true) (hcomma : t.kind ≠ .comma) (hends : endsArguments t = false)
    (h : (Expr.expression (t :: ts)).pair = (value, behind)) :
    (arguments (t :: ts)).pair =
      (arguments (if behind.length ≤ ts.length then behind else ts)).pair.map (value :: ·) id := by
  rw [pair, Prod.mk.injEq] at h
  obtain ⟨rfl, rfl⟩ := h
  rw [arguments, if_neg hright, if_neg hcomma, hends, if_neg Bool.false_ne_true]
  by_cases hlen : (Expr.expression (t :: ts)).rest.length ≤ ts.length
  · simp only [dif_pos hlen]
    rw [if_pos hlen]
    rfl
  · simp only [dif_neg hlen]
    rw [if_neg hlen]
    rfl

/-- Induction on the way in which arguments are read. Behind an argument the others are read from
where its expression ends, or behind the token in front if no expression is read. -/
@[elab_as_elim]
theorem arguments_induction {motive : List Token → Prop} (nil : motive [])
    (close : ∀ t ts, t.isParen ")" = true → motive (t :: ts))
    (comma : ∀ t ts, ¬ t.isParen ")" = true → t.kind = .comma → motive ts → motive (t :: ts))
    (stop : ∀ t ts, ¬ t.isParen ")" = true → t.kind ≠ .comma → endsArguments t = true →
      motive (t :: ts))
    (expression : ∀ t ts others, ¬ t.isParen ")" = true → t.kind ≠ .comma →
      endsArguments t = false →
      (if (Expr.expression (t :: ts)).rest.length ≤ ts.length then
        (Expr.expression (t :: ts)).rest else ts) = others →
      motive others → motive (t :: ts))
    (tokens : List Token) : motive tokens := by
  induction tokens using arguments.induct with
  | case1 => exact nil
  | case2 t ts hright => exact close t ts hright
  | case3 t ts hright hcomma ih => exact comma t ts hright hcomma ih
  | case4 t ts hright hcomma hends => exact stop t ts hright hcomma hends
  | case5 t ts hright hcomma hends e hlength ih _ =>
    exact expression t ts e.rest hright hcomma (Bool.eq_false_iff.mpr hends) (if_pos hlength) ih
  | case6 t ts hright hcomma hends e hlength ih =>
    exact expression t ts ts hright hcomma (Bool.eq_false_iff.mpr hends) (if_neg hlength) ih

theorem pair_arguments {run : List Token} {right : Token} (hrun : ∀ t ∈ run, IsInner t)
    (hright : right.isParen ")" = true) (hexcess : Token.excess run ≤ 0) :
    ∃ values behind, behind <:+ run ++ [right] ∧
      ∀ rest, (arguments (run ++ right :: rest)).pair = (values, behind ++ rest) := by
  induction hn : run.length using Nat.strongRecOn generalizing run with
  | ind n ih =>
    subst hn
    cases run with
    | nil => exact ⟨[], [], List.nil_suffix, fun rest => pair_arguments_of_right hright⟩
    | cons t run =>
      by_cases hclose : t.isParen ")" = true
      · refine ⟨[], run ++ [right], List.suffix_cons .., fun rest => ?_⟩
        rw [List.cons_append, pair_arguments_of_right hclose, List.append_assoc]
        rfl
      have hweight : 0 ≤ t.weight := by
        rw [Token.weight, if_neg hclose]
        split <;> decide
      have hbehind : Token.excess run ≤ 0 := by
        rw [Token.excess_cons] at hexcess
        omega
      have hinner := List.forall_mem_cons.mp hrun
      obtain ⟨values, behind, hsuffix, hpair⟩ := ih _ (Nat.lt_succ_self _) hinner.2 hbehind rfl
      by_cases hcomma : t.kind = .comma
      · refine ⟨values, behind, hsuffix.trans (List.suffix_cons ..), fun rest => ?_⟩
        rw [List.cons_append, pair_arguments_of_comma hcomma, hpair]
      obtain ⟨value, read, left, hsplit, hread, hexpression⟩ :=
        Expr.stopsAt_expression (.inr hright) (t :: run) (by omega)
      have hcons := fun rest => pair_arguments_of_expression hclose hcomma
        (endsArguments_of_isInner hinner.1)
        (show (Expr.expression (t :: (run ++ right :: rest))).pair = _ from hexpression rest)
      by_cases hlen : left.length ≤ run.length
      · have hleft : Token.excess left ≤ 0 := by
          rw [hsplit, Token.excess_append] at hexcess
          omega
        have hinside : left <:+ t :: run := ⟨read, hsplit.symm⟩
        obtain ⟨values', behind', hsuffix', hpair'⟩ := ih _ (Nat.lt_succ_of_le hlen)
          (fun t' ht' => hrun t' (hinside.subset ht')) hleft rfl
        refine ⟨value :: values', behind', hsuffix'.trans ?_, fun rest => ?_⟩
        · rw [hsplit, List.append_assoc]
          exact List.suffix_append ..
        · rw [List.cons_append, hcons, if_pos (by simpa using hlen), hpair']
          rfl
      · refine ⟨value :: values, behind, hsuffix.trans (List.suffix_cons ..), fun rest => ?_⟩
        rw [List.cons_append, hcons, if_neg (by simpa using hlen), hpair]
        rfl

/-- A text in front is an argument by itself unless an operator follows. -/
theorem pair_expression_of_string (h : t.kind = .string)
    (hts : ∀ t' ts', ts = t' :: ts' → t'.kind ≠ .arithmetic) :
    (Expr.expression (t :: ts)).pair = (.text (Expr.unquote t.lexeme), ts) := by
  refine Expr.pair_sum_of_stop hts ?_
  rw [Expr.maxDepth, Expr.operand, Expr.operandWith, h]
  rfl

theorem pair_ended {α : Type} {behind : List Token} {stop : Token}
    (hbehind : ∀ t ∈ behind, t.kind ≠ .terminator) (hstop : stop.kind = .terminator) (a : α) :
    ∃ left, left <:+ behind ++ [stop] ∧
      ∀ rest, (ended a (behind ++ stop :: rest)).pair = (a, left ++ rest) := by
  cases behind with
  | nil =>
    refine ⟨[], List.nil_suffix, fun rest => ?_⟩
    rw [List.nil_append, ended, if_pos hstop, pair_skip]
    rfl
  | cons t behind =>
    refine ⟨t :: (behind ++ [stop]), List.suffix_refl _, fun rest => ?_⟩
    rw [List.cons_append, ended, if_neg (hbehind t List.mem_cons_self), pair_stay,
      List.cons_append, List.append_assoc]
    rfl

end Clause

end Stepwise
