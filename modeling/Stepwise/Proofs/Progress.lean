import Mathlib.Logic.ExistsUnique
import Stepwise.Proofs.LoopWords
import Stepwise.Proofs.Sizes

/-!
# Reading comes to an end

The two passes of the reader read no token twice, and each of them is a recursion on the tokens that
are left. A reader that goes down into the body of a loop and comes back at its end has no such
recursion: how far the body reaches is known only when it has been read. It goes round in three
loops, over the statements of the text, over those of a body, and over the arguments of `write`, and
it would go round for ever if a round read nothing.

No round does. `Stmt.IsRead` is that reader, as a relation between tokens and what it makes of them,
with the three loops as they are. A loop that goes on for ever makes nothing of its tokens, so that
there is an answer at all is what has to be shown. The reader reads at least the token in front,
because each clause does, and so every round reads a token or is the last. Then the loops end, and
what they make of the tokens is what the two passes make of them.

## Main definitions

* `Round`, `Round.Repeats` — a round of a loop, and the loop
* `Stmt.IsRead`, `Stmt.IsBody` — the statement in front of tokens, read with its body
* `LeftBehind` — what is left behind a place that the reader has got to
* `Answers` — a relation that has one answer, with a property

## Main results

* `Round.repeats_of_forall` — a loop ends if its rounds read something
* `Stmt.exists_reads`, `Stmt.exists_readsBody` — statements and bodies are read to their ends
* `Stmt.IsRead.unique`, `Stmt.IsBody.unique` — in one way only
* `reading_progresses` — the reader goes on at every place, and comes to an end
-/

namespace Stepwise

open Reading

/-- What a round of a loop over tokens comes to. Either the loop ends, or it goes on with what the
round has read, if that is anything. In both cases some tokens are left. -/
inductive Round (α : Type) where
  | ends (rest : List Token)
  | goesOn (value : Option α) (rest : List Token)

namespace Round

variable {α : Type}

/-- Goes round until a round ends the loop, and collects what was read. -/
inductive Repeats (round : List Token → Round α → Prop) :
    List Token → List α × List Token → Prop where
  | ends {tokens rest : List Token} (h : round tokens (.ends rest)) :
      Repeats round tokens ([], rest)
  | goesOn {tokens rest last : List Token} {value : Option α} {values : List α}
      (h : round tokens (.goesOn value rest)) (hrest : Repeats round rest (values, last)) :
      Repeats round tokens (value.toList ++ values, last)

/-- **A loop ends if its rounds read something.** If a function says of each round what it leaves
to the others, the loop computes that function. -/
theorem repeats_of_forall {round : List Token → Round α → Prop}
    (f : List Token → List α × List Token)
    (h : ∀ tokens,
      (∃ rest, round tokens (.ends rest) ∧ f tokens = ([], rest)) ∨
      ∃ value rest, round tokens (.goesOn value rest) ∧ rest.length < tokens.length ∧
        f tokens = (value.toList ++ (f rest).1, (f rest).2))
    (tokens : List Token) : Repeats round tokens (f tokens) := by
  induction hn : tokens.length using Nat.strongRecOn generalizing tokens with
  | ind n ih =>
    subst hn
    rcases h tokens with ⟨rest, hround, hf⟩ | ⟨value, rest, hround, hlt, hf⟩
    · rw [hf]
      exact .ends hround
    · rw [hf]
      exact .goesOn hround (ih _ hlt rest rfl)

/-- A loop has one answer if its rounds have. -/
theorem Repeats.unique {round : List Token → Round α → Prop} {tokens : List Token}
    {read read' : List α × List Token} (hread : Repeats round tokens read)
    (h : ∀ tokens r r', round tokens r → round tokens r' → r = r')
    (hread' : Repeats round tokens read') : read = read' := by
  induction hread generalizing read' with
  | ends hround =>
    cases hread' with
    | ends hround' =>
      cases h _ _ _ hround hround'
      rfl
    | goesOn hround' hrest' => cases h _ _ _ hround hround'
  | goesOn hround hrest ih =>
    cases hread' with
    | ends hround' => cases h _ _ _ hround hround'
    | goesOn hround' hrest' =>
      cases h _ _ _ hround hround'
      cases ih hrest'
      rfl

end Round

/-! ### Statements with their bodies -/

namespace Stmt

mutual

/-- The statement in front, if one begins there, and the tokens behind it. A loop is read up to its
end. Where no statement begins, a token is passed over. -/
inductive IsRead : List Token → Option Stmt × List Token → Prop where
  | empty : IsRead [] (none, [])
  | loop {t : Token} {ts rest : List Token} {condition : Expr} {body : List Stmt}
      (h : (Clause.read Int t ts).value = some (.loop condition))
      (hbody : IsBody (Clause.read Int t ts).rest (body, rest)) :
      IsRead (t :: ts) (some (.loop condition body), rest)
  | assign {t : Token} {ts : List Token} {target : String} {value : Expr}
      (h : (Clause.read Int t ts).value = some (.assign target value)) :
      IsRead (t :: ts) (some (.assign target value), (Clause.read Int t ts).rest)
  | write {t : Token} {ts : List Token} {args : List Expr}
      (h : (Clause.read Int t ts).value = some (.write args)) :
      IsRead (t :: ts) (some (.write args), (Clause.read Int t ts).rest)
  | loopEnd {t : Token} {ts : List Token} (h : (Clause.read Int t ts).value = some .loopEnd) :
      IsRead (t :: ts) (none, (Clause.read Int t ts).rest)
  | none {t : Token} {ts : List Token} (h : (Clause.read Int t ts).value = none) :
      IsRead (t :: ts) (none, (Clause.read Int t ts).rest)

/-- A round over the statements of a body. The end of the loop ends it, and so does that of the
text. -/
inductive IsBodyRound : List Token → Round Stmt → Prop where
  | empty : IsBodyRound [] (.ends [])
  | stop {t : Token} (h : t.isWord "end-while" = true) (ts : List Token) :
      IsBodyRound (t :: ts) (.ends ts)
  | statement {t : Token} {ts rest : List Token} {stmt : Option Stmt}
      (h : ¬ t.isWord "end-while" = true) (hread : IsRead (t :: ts) (stmt, rest)) :
      IsBodyRound (t :: ts) (.goesOn stmt rest)

/-- The statements of a body, and the tokens behind its end. -/
inductive IsBody : List Token → List Stmt × List Token → Prop where
  | ends {tokens rest : List Token} (h : IsBodyRound tokens (.ends rest)) :
      IsBody tokens ([], rest)
  | goesOn {tokens rest last : List Token} {stmt : Option Stmt} {stmts : List Stmt}
      (h : IsBodyRound tokens (.goesOn stmt rest)) (hrest : IsBody rest (stmts, last)) :
      IsBody tokens (stmt.toList ++ stmts, last)

end

/-- A round over the statements of a text. Only the end of the text ends it. -/
inductive IsTextRound : List Token → Round Stmt → Prop where
  | empty : IsTextRound [] (.ends [])
  | statement {t : Token} {ts rest : List Token} {stmt : Option Stmt}
      (hread : IsRead (t :: ts) (stmt, rest)) : IsTextRound (t :: ts) (.goesOn stmt rest)

mutual

theorem IsRead.unique {tokens : List Token} {read read' : Option Stmt × List Token} :
    IsRead tokens read → IsRead tokens read' → read = read'
  | .empty, .empty => rfl
  | .loop h hbody, h' => by
    cases h' with
    | loop h' hbody' =>
      cases h.symm.trans h'
      have hsame := hbody.unique hbody'
      cases hsame
      rfl
    | assign h' | write h' | loopEnd h' | none h' => cases h.symm.trans h'
  | .assign h, h' => by
    cases h' with
    | assign h' =>
      cases h.symm.trans h'
      rfl
    | loop h' | write h' | loopEnd h' | none h' => cases h.symm.trans h'
  | .write h, h' => by
    cases h' with
    | write h' =>
      cases h.symm.trans h'
      rfl
    | loop h' | assign h' | loopEnd h' | none h' => cases h.symm.trans h'
  | .loopEnd h, h' => by
    cases h' with
    | loopEnd h' => rfl
    | loop h' | assign h' | write h' | none h' => cases h.symm.trans h'
  | .none h, h' => by
    cases h' with
    | none h' => rfl
    | loop h' | assign h' | write h' | loopEnd h' => cases h.symm.trans h'

theorem IsBodyRound.unique {tokens : List Token} {round round' : Round Stmt} :
    IsBodyRound tokens round → IsBodyRound tokens round' → round = round'
  | .empty, .empty => rfl
  | .stop _ _, .stop _ _ => rfl
  | .stop h _, .statement h' _ => absurd h h'
  | .statement h _, .stop h' _ => absurd h' h
  | .statement _ hread, .statement _ hread' => by
    have hsame := hread.unique hread'
    cases hsame
    rfl

theorem IsBody.unique {tokens : List Token} {read read' : List Stmt × List Token} :
    IsBody tokens read → IsBody tokens read' → read = read'
  | .ends hround, .ends hround' => by
    have hsame := hround.unique hround'
    cases hsame
    rfl
  | .ends hround, .goesOn hround' _ => by
    have hsame := hround.unique hround'
    cases hsame
  | .goesOn hround _, .ends hround' => by
    have hsame := hround.unique hround'
    cases hsame
  | .goesOn hround hrest, .goesOn hround' hrest' => by
    have hsame := hround.unique hround'
    cases hsame
    have hothers := hrest.unique hrest'
    cases hothers
    rfl

end

theorem IsTextRound.unique {tokens : List Token} {round round' : Round Stmt}
    (h : IsTextRound tokens round) (h' : IsTextRound tokens round') : round = round' := by
  cases h with
  | empty =>
    cases h'
    rfl
  | statement hread =>
    cases h' with
    | statement hread' =>
      cases hread.unique hread'
      rfl

end Stmt

namespace Clause

/-- A round over the arguments of `write`. Where no expression is read, the token in front is passed
over. -/
def argumentRound : List Token → Round Expr
  | [] => .ends []
  | t :: ts =>
    if t.isParen ")" then .ends ts
    else if t.kind = .comma then .goesOn none ts
    else if endsArguments t then .ends (t :: ts)
    else
      let e := Expr.expression (t :: ts)
      .goesOn (some e.value) (if e.rest = t :: ts then ts else e.rest)

/-- Only the end of a loop is read as one. -/
theorem isWord_of_value_read {t : Token} {ts : List Token}
    (h : (read Int t ts).value = some .loopEnd) : t.isWord "end-while" = true := by
  refine Decidable.byContradiction fun hend => ?_
  by_cases hwhile : t.isWord "while" = true
  · rw [read, if_pos hwhile] at h
    cases h
  · have hloop : t.isLoopWord = false := by
      rw [Token.isLoopWord, Bool.eq_false_iff.mpr hwhile, Bool.eq_false_iff.mpr hend]
      rfl
    have hword := filterMap_word?_read hloop ts
    rw [h] at hword
    cases hword

theorem ofTokens_of_loopEnd {t : Token} (h : t.isWord "end-while" = true) (ts : List Token) :
    ofTokens Int (t :: ts) = .loopEnd :: ofTokens Int ts := by
  rw [ofTokens_cons, read, if_neg (Token.not_isWord h (by decide)), if_pos h]
  rfl

end Clause

namespace Stmt

variable {t : Token} {ts tokens rest last : List Token} {stmt : Option Stmt} {body : List Stmt}

/-- A loop takes what stands in front of the first end into its body. -/
theorem partsOfClauses_loop_eq (condition : Expr) (clauses : List Clause) :
    partsOfClauses (.loop condition :: clauses) =
      (.loop condition (partsOfClauses clauses).1 :: (partsOfClauses clauses).2.headD [],
        (partsOfClauses clauses).2.tail) := by
  rw [partsOfClauses]
  cases partsOfClauses clauses with
  | mk body behind => cases behind <;> rfl

/-- The statement in front of tokens is read, with at least the first token, and it is what the
clauses of these tokens begin with. -/
structure Reads (t : Token) (ts : List Token) (stmt : Option Stmt) (rest : List Token) : Prop where
  isRead : IsRead (t :: ts) (stmt, rest)
  rest_suffix : rest <:+ ts
  parts : ¬ t.isWord "end-while" = true →
    partsOfClauses (Clause.ofTokens Int (t :: ts)) =
      (stmt.toList ++ (partsOfClauses (Clause.ofTokens Int rest)).1,
        (partsOfClauses (Clause.ofTokens Int rest)).2)
  all : ofClauses (Clause.ofTokens Int (t :: ts)) =
    stmt.toList ++ ofClauses (Clause.ofTokens Int rest)

/-- The statements of a body are read, and they are what stands in front of the first end among the
clauses of the tokens. What stands behind that end is left. -/
structure ReadsBody (tokens : List Token) (body : List Stmt) (rest : List Token) : Prop where
  isBody : IsBody tokens (body, rest)
  rest_suffix : rest <:+ tokens
  front : (partsOfClauses (Clause.ofTokens Int tokens)).1 = body
  behind : partsOfClauses (Clause.ofTokens Int rest) =
    ((partsOfClauses (Clause.ofTokens Int tokens)).2.headD [],
      (partsOfClauses (Clause.ofTokens Int tokens)).2.tail)

/-- A statement is read if the bodies behind its first token are. -/
theorem exists_reads_of_forall
    (h : ∀ tokens, tokens <:+ ts → ∃ body rest, ReadsBody tokens body rest) :
    ∃ stmt rest, Reads t ts stmt rest := by
  have hsuffix := (Clause.read Int t ts).rest_suffix
  have hclauses := Clause.ofTokens_cons Int t ts
  -- What is said of all clauses follows from what is said of the parts.
  have hall : ∀ (stmt : Option Stmt) (rest : List Token),
      partsOfClauses (Clause.ofTokens Int (t :: ts)) =
        (stmt.toList ++ (partsOfClauses (Clause.ofTokens Int rest)).1,
          (partsOfClauses (Clause.ofTokens Int rest)).2) →
      ofClauses (Clause.ofTokens Int (t :: ts)) =
        stmt.toList ++ ofClauses (Clause.ofTokens Int rest) := by
    intro stmt rest hparts
    simp only [ofClauses, hparts, List.append_assoc]
  cases hvalue : (Clause.read Int t ts).value with
  | none =>
    rw [hvalue] at hclauses
    have hparts := congrArg partsOfClauses hclauses
    exact ⟨none, _, ⟨.none hvalue, hsuffix, fun _ => hparts, hall none _ hparts⟩⟩
  | some clause =>
    rw [hvalue] at hclauses
    have hparts := congrArg partsOfClauses hclauses
    cases clause with
    | loop condition =>
      obtain ⟨body, rest, hbody⟩ := h _ hsuffix
      have hloop : partsOfClauses (Clause.ofTokens Int (t :: ts)) =
          ((some (Stmt.loop condition body)).toList ++
            (partsOfClauses (Clause.ofTokens Int rest)).1,
            (partsOfClauses (Clause.ofTokens Int rest)).2) := by
        rw [hparts, hbody.behind, ← hbody.front]
        exact partsOfClauses_loop_eq ..
      exact ⟨some (.loop condition body), rest, ⟨.loop hvalue hbody.isBody,
        hbody.rest_suffix.trans hsuffix, fun _ => hloop, hall _ _ hloop⟩⟩
    | loopEnd =>
      have hend := Clause.isWord_of_value_read hvalue
      refine ⟨none, _, ⟨.loopEnd hvalue, hsuffix, fun hnot => absurd hend hnot, ?_⟩⟩
      rw [hclauses]
      exact ofClauses_loopEnd _
    | assign target value =>
      have hassign := hparts.trans (partsOfClauses_assign target value _)
      exact ⟨some (.assign target value), _,
        ⟨.assign hvalue, hsuffix, fun _ => hassign, hall _ _ hassign⟩⟩
    | write args =>
      have hwrite := hparts.trans (partsOfClauses_write args _)
      exact ⟨some (.write args), _,
        ⟨.write hvalue, hsuffix, fun _ => hwrite, hall _ _ hwrite⟩⟩

/-- **Bodies are read to their ends.** -/
theorem exists_readsBody (tokens : List Token) : ∃ body rest, ReadsBody tokens body rest := by
  induction hn : tokens.length using Nat.strongRecOn generalizing tokens with
  | ind n ih =>
    subst hn
    cases tokens with
    | nil =>
      refine ⟨[], [], ⟨.ends .empty, List.suffix_refl _, ?_, ?_⟩⟩ <;>
      · rw [Clause.ofTokens_nil]
        rfl
    | cons t ts =>
      by_cases hend : t.isWord "end-while" = true
      · have hparts : partsOfClauses (Clause.ofTokens Int (t :: ts)) = _ :=
          (congrArg partsOfClauses (Clause.ofTokens_of_loopEnd hend ts)).trans
            (partsOfClauses_loopEnd _)
        refine ⟨[], ts, ⟨.ends (.stop hend ts), List.suffix_cons t ts, ?_, ?_⟩⟩
        · rw [hparts]
        · rw [hparts]
          rfl
      · have hbodies : ∀ tokens, tokens <:+ ts → ∃ body rest, ReadsBody tokens body rest :=
          fun tokens hs => ih _ (Nat.lt_succ_of_le hs.length_le) tokens rfl
        obtain ⟨stmt, rest, hread⟩ : ∃ stmt rest, Reads t ts stmt rest :=
          exists_reads_of_forall hbodies
        obtain ⟨body, last, hbody⟩ :=
          ih _ (Nat.lt_succ_of_le hread.rest_suffix.length_le) rest rfl
        have hparts := hread.parts hend
        refine ⟨stmt.toList ++ body, last,
          ⟨.goesOn (.statement hend hread.isRead) hbody.isBody,
            (hbody.rest_suffix.trans hread.rest_suffix).trans (List.suffix_cons t ts), ?_, ?_⟩⟩
        · rw [hparts, hbody.front]
        · rw [hparts]
          exact hbody.behind

/-- **A statement is read, and at least one token with it.** -/
theorem exists_reads (t : Token) (ts : List Token) : ∃ stmt rest, Reads t ts stmt rest :=
  exists_reads_of_forall fun tokens _ => exists_readsBody tokens

/-- The statements that are read one behind another are those of the two passes. -/
theorem repeats_isTextRound (tokens : List Token) :
    Round.Repeats IsTextRound tokens (ofTokens tokens, []) := by
  refine Round.repeats_of_forall (fun tokens => (ofTokens tokens, [])) (fun tokens => ?_) tokens
  cases tokens with
  | nil =>
    refine .inl ⟨[], .empty, ?_⟩
    rw [ofTokens, ofTokensIn, Clause.ofTokens_nil]
    rfl
  | cons t ts =>
    obtain ⟨stmt, rest, hread⟩ := exists_reads t ts
    refine .inr ⟨stmt, rest, .statement hread.isRead,
      Nat.lt_succ_of_le hread.rest_suffix.length_le, ?_⟩
    show (ofClauses (Clause.ofTokens Int (t :: ts)), []) = _
    rw [hread.all]
    rfl

end Stmt

namespace Clause

variable {t : Token} {ts rest : List Token}

/-- That nothing was read is the same for the tokens that are left and for their number. -/
theorem ite_length_le_of_suffix (h : rest <:+ t :: ts) :
    (if rest.length ≤ ts.length then rest else ts) = if rest = t :: ts then ts else rest := by
  by_cases hstay : rest = t :: ts
  · have hnot : ¬ rest.length ≤ ts.length := by
      rw [hstay]
      exact Nat.not_succ_le_self _
    rw [if_pos hstay, if_neg hnot]
  · have hlt := Nat.lt_of_le_of_ne h.length_le (mt h.eq_of_length hstay)
    rw [if_neg hstay, if_pos (Nat.le_of_lt_succ hlt)]

theorem argumentRound_of_expression (hright : ¬ t.isParen ")" = true) (hcomma : t.kind ≠ .comma)
    (hends : endsArguments t = false) (ts : List Token) :
    ∃ value others, argumentRound (t :: ts) = .goesOn (some value) others ∧ others <:+ ts ∧
      (arguments (t :: ts)).pair = (arguments others).pair.map (value :: ·) id := by
  have hsuffix := (Expr.expression (t :: ts)).rest_suffix
  have hpair := pair_arguments_of_expression hright hcomma hends
    (show (Expr.expression (t :: ts)).pair = (_, _) from rfl)
  rw [ite_length_le_of_suffix hsuffix] at hpair
  refine ⟨_, _, ?_, ?_, hpair⟩
  · rw [argumentRound, if_neg hright, if_neg hcomma, if_neg (Bool.eq_false_iff.mp hends)]
  · split
    · exact List.suffix_refl ts
    · next hmoved => exact (List.suffix_cons_iff.mp hsuffix).resolve_left hmoved

/-- A round over arguments ends them, or reads a token. -/
theorem argumentRound_cases (tokens : List Token) :
    (∃ rest, argumentRound tokens = .ends rest ∧ rest <:+ tokens ∧
      (arguments tokens).pair = ([], rest)) ∨
    ∃ t ts value others, tokens = t :: ts ∧ argumentRound tokens = .goesOn value others ∧
      others <:+ ts ∧
      (arguments tokens).pair =
        (value.toList ++ (arguments others).pair.1, (arguments others).pair.2) := by
  cases tokens with
  | nil =>
    rw [arguments]
    exact .inl ⟨[], rfl, List.suffix_refl _, rfl⟩
  | cons t ts =>
    by_cases hright : t.isParen ")" = true
    · rw [argumentRound, if_pos hright, pair_arguments_of_right hright]
      exact .inl ⟨ts, rfl, List.suffix_cons t ts, rfl⟩
    by_cases hcomma : t.kind = .comma
    · rw [argumentRound, if_neg hright, if_pos hcomma, pair_arguments_of_comma hcomma]
      exact .inr ⟨t, ts, none, ts, rfl, rfl, List.suffix_refl ts, rfl⟩
    by_cases hends : endsArguments t = true
    · rw [argumentRound, if_neg hright, if_neg hcomma, if_pos hends, arguments, if_neg hright,
        if_neg hcomma, if_pos hends]
      exact .inl ⟨t :: ts, rfl, List.suffix_refl _, rfl⟩
    · obtain ⟨value, others, hround, hothers, hpair⟩ :=
        argumentRound_of_expression hright hcomma (Bool.eq_false_iff.mpr hends) ts
      exact .inr ⟨t, ts, some value, others, rfl, hround, hothers, hpair⟩

/-- The arguments that are read one behind another are those of the reader of arguments. -/
theorem repeats_argumentRound (tokens : List Token) :
    Round.Repeats (fun tokens round => argumentRound tokens = round) tokens
      (arguments tokens).pair := by
  refine Round.repeats_of_forall (fun tokens => (arguments tokens).pair) (fun tokens => ?_) tokens
  rcases argumentRound_cases tokens with
    ⟨rest, hround, -, hpair⟩ | ⟨t, ts, value, others, rfl, hround, hothers, hpair⟩
  · exact .inl ⟨rest, hround, hpair⟩
  · exact .inr ⟨value, others, hround, Nat.lt_succ_of_le hothers.length_le, hpair⟩

end Clause

/-! ### Places -/

/-- The tokens that are left behind some place from `least` on, which is not behind the end. -/
def LeftBehind (tokens : List Token) (least : Nat) (rest : List Token) : Prop :=
  ∃ place, least ≤ place ∧ place ≤ tokens.length ∧ rest = tokens.drop place

/-- A round from a place ends there or further on, or goes on from a place further on. -/
def Round.GoesOnFrom {α : Type} (tokens : List Token) (place : Nat) : Round α → Prop
  | .ends rest => LeftBehind tokens place rest
  | .goesOn _ rest => LeftBehind tokens (place + 1) rest

section

variable {tokens rest : List Token} {place : Nat}

theorem leftBehind_of_suffix (hplace : place ≤ tokens.length) (h : rest <:+ tokens.drop place) :
    LeftBehind tokens place rest := by
  obtain ⟨read, hread⟩ := h
  have hlength := congrArg List.length hread
  rw [List.length_append, List.length_drop] at hlength
  refine ⟨place + read.length, Nat.le_add_right .., by omega, ?_⟩
  rw [← List.drop_drop, ← hread, List.drop_left]

/-- At a place in front of the end there is a token, and what is left behind it is behind the
place. -/
theorem exists_drop_eq_cons (hplace : place < tokens.length) :
    ∃ t ts, tokens.drop place = t :: ts ∧
      ∀ rest, rest <:+ ts → LeftBehind tokens (place + 1) rest := by
  refine ⟨tokens[place], tokens.drop (place + 1), List.drop_eq_getElem_cons hplace, ?_⟩
  exact fun rest => leftBehind_of_suffix hplace

theorem Stmt.exists_isRead (hplace : place < tokens.length) :
    ∃ read, IsRead (tokens.drop place) read ∧ LeftBehind tokens (place + 1) read.2 := by
  obtain ⟨t, ts, hdrop, hbehind⟩ := exists_drop_eq_cons hplace
  obtain ⟨stmt, rest, hread⟩ := exists_reads t ts
  rw [hdrop]
  exact ⟨(stmt, rest), hread.isRead, hbehind rest hread.rest_suffix⟩

theorem Stmt.exists_isTextRound (hplace : place ≤ tokens.length) :
    ∃ round, IsTextRound (tokens.drop place) round ∧ round.GoesOnFrom tokens place := by
  rcases Nat.eq_or_lt_of_le hplace with rfl | hlt
  · rw [List.drop_length]
    exact ⟨.ends [], .empty, leftBehind_of_suffix hplace (List.nil_suffix ..)⟩
  · obtain ⟨t, ts, hdrop, hbehind⟩ := exists_drop_eq_cons hlt
    obtain ⟨stmt, rest, hread⟩ := exists_reads t ts
    rw [hdrop]
    exact ⟨_, .statement hread.isRead, hbehind rest hread.rest_suffix⟩

theorem Stmt.exists_isBodyRound (hplace : place ≤ tokens.length) :
    ∃ round, IsBodyRound (tokens.drop place) round ∧ round.GoesOnFrom tokens place := by
  rcases Nat.eq_or_lt_of_le hplace with rfl | hlt
  · rw [List.drop_length]
    exact ⟨.ends [], .empty, leftBehind_of_suffix hplace (List.nil_suffix ..)⟩
  · obtain ⟨t, ts, hdrop, hbehind⟩ := exists_drop_eq_cons hlt
    rw [hdrop]
    by_cases hend : t.isWord "end-while" = true
    · refine ⟨_, .stop hend ts, leftBehind_of_suffix hplace ?_⟩
      rw [hdrop]
      exact List.suffix_cons t ts
    · obtain ⟨stmt, rest, hread⟩ := exists_reads t ts
      exact ⟨_, .statement hend hread.isRead, hbehind rest hread.rest_suffix⟩

theorem Stmt.exists_isBody (hplace : place ≤ tokens.length) :
    ∃ read, IsBody (tokens.drop place) read ∧ LeftBehind tokens place read.2 := by
  obtain ⟨body, rest, hbody⟩ := exists_readsBody (tokens.drop place)
  exact ⟨(body, rest), hbody.isBody, leftBehind_of_suffix hplace hbody.rest_suffix⟩

theorem Clause.goesOnFrom_argumentRound (hplace : place ≤ tokens.length) :
    (argumentRound (tokens.drop place)).GoesOnFrom tokens place := by
  rcases argumentRound_cases (tokens.drop place) with
    ⟨rest, hround, hrest, -⟩ | ⟨t, ts, value, others, hdrop, hround, hothers, -⟩
  · rw [hround]
    exact leftBehind_of_suffix hplace hrest
  · have hlt : place < tokens.length := by
      refine Nat.lt_of_le_of_ne hplace fun heq => ?_
      rw [heq, List.drop_length] at hdrop
      cases hdrop
    obtain ⟨t', ts', hdrop', hbehind⟩ := exists_drop_eq_cons hlt
    rw [hdrop] at hdrop'
    cases hdrop'
    rw [hround]
    exact hbehind others hothers

end

/-- There is exactly one answer, and it has a property. -/
def Answers {β : Type} (answer property : β → Prop) : Prop :=
  (∃! b, answer b) ∧ ∀ b, answer b → property b

theorem answers_of_unique {β : Type} {answer property : β → Prop}
    (hunique : ∀ {b b'}, answer b → answer b' → b = b') (h : ∃ b, answer b ∧ property b) :
    Answers answer property := by
  obtain ⟨b, hb, hproperty⟩ := h
  refine ⟨⟨b, hb, fun b' hb' => hunique hb' hb⟩, fun b' hb' => ?_⟩
  rw [hunique hb' hb]
  exact hproperty

/-- **The reader goes on at every place, and comes to an end.** Whatever the tokens are, a statement
is read wherever there is a token in front, with its body and at least with that token, and not
beyond the end. A round over the statements of the text, over those of a body or over the arguments
of `write` is the last or reads a token, and an expression does not go back. So all of it comes to
an end: the loops read the statements of which the program is made and the arguments, and the
program has at most two instructions for each token. -/
theorem reading_progresses (tokens : List Token) :
    (∀ place < tokens.length, Answers (Stmt.IsRead (tokens.drop place)) fun read =>
      LeftBehind tokens (place + 1) read.2) ∧
    (∀ place ≤ tokens.length,
      (Answers (Stmt.IsTextRound (tokens.drop place)) fun round =>
        round.GoesOnFrom tokens place) ∧
      (Answers (Stmt.IsBodyRound (tokens.drop place)) fun round =>
        round.GoesOnFrom tokens place) ∧
      (Clause.argumentRound (tokens.drop place)).GoesOnFrom tokens place ∧
      (∀ depth, LeftBehind tokens place (Expr.expressionWithin depth (tokens.drop place)).rest) ∧
      (Answers (Stmt.IsBody (tokens.drop place)) fun read => LeftBehind tokens place read.2) ∧
      Answers (Round.Repeats (fun ts round => Clause.argumentRound ts = round) (tokens.drop place))
        fun read => read = (Clause.arguments (tokens.drop place)).pair) ∧
    (Answers (Round.Repeats Stmt.IsTextRound tokens) fun read =>
      read.2 = [] ∧ Program.ofTokens tokens = Program.ofStmts read.1) ∧
    (Program.ofTokens tokens).length ≤ 2 * tokens.length := by
  refine ⟨fun place hplace => ?_, fun place hplace => ⟨?_, ?_, ?_, fun depth => ?_, ?_, ?_⟩, ?_,
    Program.length_ofTokens_le tokens⟩
  · exact answers_of_unique Stmt.IsRead.unique (Stmt.exists_isRead hplace)
  · exact answers_of_unique Stmt.IsTextRound.unique (Stmt.exists_isTextRound hplace)
  · exact answers_of_unique Stmt.IsBodyRound.unique (Stmt.exists_isBodyRound hplace)
  · exact Clause.goesOnFrom_argumentRound hplace
  · exact leftBehind_of_suffix hplace (Expr.expressionWithin depth _).rest_suffix
  · exact answers_of_unique Stmt.IsBody.unique (Stmt.exists_isBody hplace)
  · exact answers_of_unique (fun h h' => h.unique (fun _ _ _ hr hr' => hr.symm.trans hr') h')
      ⟨_, Clause.repeats_argumentRound _, rfl⟩
  · exact answers_of_unique (fun h h' => h.unique (fun _ _ _ => Stmt.IsTextRound.unique) h')
      ⟨_, Stmt.repeats_isTextRound tokens, rfl, Program.ofTokens_eq tokens⟩

end Stepwise
