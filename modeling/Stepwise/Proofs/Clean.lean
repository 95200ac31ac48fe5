import Stepwise.Check
import Stepwise.Proofs.Grammar

/-!
# Pieces in which nothing is found

The checker goes on behind what is wrong, so most of what it does is about programs that it is
going to refuse. This module is about the rest: when a piece of a statement is checked and nothing
is found, which tokens were in front.

For each piece the answer is an equivalence. That it is one makes chains of pieces easy, since a
chain is clean if and only if each piece is, and it leaves no recovery path to look at by itself.

The three runs inside statements are alike in this. Each check passes over the tokens of its kinds
as long as no parenthesis is closed that is not open, and what it does at a token that bars the
run is all that has to be known of it besides.

## Main definitions

* `Check.Outcome.clean` — what a piece leaves behind in which nothing is found
* `Check.Passes` — a check that passes over runs

## Main results

* `Check.Passes.eq_clean` — what a check that passes over runs accepts
* `Check.condition_eq_clean`, `Check.arguments_eq_clean`, `Check.rightSide_eq_clean` — the three
  runs
-/

namespace Stepwise

open Grammar

namespace Check

variable {tokens rest : List Token}

namespace Outcome

/-- Nothing was found in a piece that was all there. -/
def clean (rest : List Token) : Outcome := ⟨true, [], rest⟩

/-- What is not all there was found wanting. -/
def Honest (o : Outcome) : Prop := o.diagnostics = [] → o.complete = true

variable {o : Outcome} {next : List Token → Outcome}

theorem Honest.diagnostics_eq_nil_iff (h : o.Honest) : o.diagnostics = [] ↔ o = clean o.rest := by
  constructor
  · intro hd
    have hcomplete := h hd
    obtain ⟨complete, diagnostics, rest⟩ := o
    cases hd
    cases hcomplete
    rfl
  · intro ho
    rw [ho]
    rfl

theorem clean_inj {rest rest' : List Token} : clean rest = clean rest' ↔ rest = rest' :=
  ⟨fun h => congrArg Outcome.rest h, congrArg clean⟩

theorem report_eq_clean {ds : List Diagnostic} :
    o.report ds = clean rest ↔ ds = [] ∧ o = clean rest := by
  obtain ⟨complete, diagnostics, behind⟩ := o
  simp only [report, clean, mk.injEq, List.append_eq_nil_iff]
  constructor
  · rintro ⟨hcomplete, ⟨hds, hdiagnostics⟩, hrest⟩
    exact ⟨hds, hcomplete, hdiagnostics, hrest⟩
  · rintro ⟨hds, hcomplete, hdiagnostics, hrest⟩
    exact ⟨hcomplete, ⟨hds, hdiagnostics⟩, hrest⟩

/-- A chain of pieces is clean if and only if every piece is. -/
theorem andThen_eq_clean :
    o.andThen next = clean rest ↔ ∃ mid, o = clean mid ∧ next mid = clean rest := by
  constructor
  · intro h
    cases hcomplete : o.complete with
    | false =>
      rw [andThen_of_not_complete hcomplete] at h
      rw [h] at hcomplete
      cases hcomplete
    | true =>
      rw [andThen_of_complete hcomplete, report_eq_clean] at h
      exact ⟨o.rest, (Honest.diagnostics_eq_nil_iff fun _ => hcomplete).mp h.1, h.2⟩
  · rintro ⟨mid, rfl, h⟩
    rw [andThen_of_complete rfl, report_eq_clean]
    exact ⟨rfl, h⟩

theorem report_andThen (ds : List Diagnostic) :
    (o.report ds).andThen next = (o.andThen next).report ds := by
  obtain ⟨complete, diagnostics, rest⟩ := o
  cases complete with
  | false => rfl
  | true => simp only [report, andThen, if_true, List.append_assoc]

theorem andThen_assoc (o : Outcome) (next further : List Token → Outcome) :
    (o.andThen next).andThen further = o.andThen fun ts => (next ts).andThen further := by
  cases hcomplete : o.complete with
  | false =>
    rw [andThen_of_not_complete hcomplete, andThen_of_not_complete hcomplete,
      andThen_of_not_complete hcomplete]
  | true =>
    rw [andThen_of_complete hcomplete, andThen_of_complete hcomplete, report_andThen]

theorem honest_of_complete (h : o.complete = true) : o.Honest := fun _ => h

theorem honest_of_diagnostics_ne (h : o.diagnostics ≠ []) : o.Honest := fun hd => absurd hd h

theorem Honest.report (h : o.Honest) (ds : List Diagnostic) : (o.report ds).Honest :=
  fun hd => h (List.append_eq_nil_iff.mp hd).2

theorem Honest.andThen (h : o.Honest) (hnext : ∀ ts, (next ts).Honest) :
    (o.andThen next).Honest := by
  intro hd
  cases hcomplete : o.complete with
  | false =>
    rw [andThen_of_not_complete hcomplete] at hd ⊢
    exact h hd
  | true =>
    rw [andThen_of_complete hcomplete] at hd ⊢
    exact hnext _ (List.append_eq_nil_iff.mp hd).2

end Outcome

open Outcome

/-! ### Single tokens -/

/-- A piece that is one token, if it is the one that is wanted. -/
theorem ite_eq_clean {w : Wanted} {t : Token} {ts : List Token} {c : Prop} [Decidable c]
    (hc : c ↔ w.accepts t = true) {refused : Outcome} (hrefused : refused ≠ clean rest) :
    (if c then (⟨true, [], ts⟩ : Outcome) else refused) = clean rest ↔
      ∃ wanted : Terminal w, t :: ts = wanted.1 :: rest := by
  split
  · next h =>
    constructor
    · intro ho
      have hrest : ts = rest := congrArg Outcome.rest ho
      exact ⟨⟨t, hc.mp h⟩, by rw [hrest]⟩
    · rintro ⟨wanted, ht⟩
      rw [(List.cons.inj ht).2, clean]
  · next h =>
    constructor
    · intro ho
      exact absurd ho hrefused
    · rintro ⟨wanted, ht⟩
      rw [hc, (List.cons.inj ht).1] at h
      exact absurd wanted.2 h

theorem expect_eq_clean {w : Wanted} :
    expect w tokens = clean rest ↔ ∃ t : Terminal w, tokens = t.1 :: rest := by
  cases tokens with
  | nil => simp [expect, clean]
  | cons t ts => exact ite_eq_clean Iff.rfl fun h => by cases congrArg complete h

theorem expectTerminator_eq_clean {f : Fault} :
    expectTerminator f tokens = clean rest ↔ ∃ stop : Stop, tokens = stop.1 :: rest := by
  cases tokens with
  | nil => simp [expectTerminator, clean]
  | cons t ts => exact ite_eq_clean beq_iff_eq.symm fun h => by cases congrArg diagnostics h

theorem closeWrite_eq_clean :
    closeWrite tokens = clean rest ↔ ∃ right : Right, tokens = right.1 :: rest := by
  cases tokens with
  | nil => simp [closeWrite, clean]
  | cons t ts =>
    exact ite_eq_clean (w := .lexeme .paren ")") Iff.rfl fun h => by cases congrArg complete h

/-! ### Runs of tokens -/

/-- A function from a count and a list of tokens passes over tokens of the given kinds as long as
no parenthesis is closed that is not open. -/
def Passes (kinds : List Token.Kind) (check : Int → List Token → Outcome) : Prop :=
  ∀ depth t ts, 0 ≤ depth → t.IsOf kinds → 0 ≤ depth + t.weight →
    check depth (t :: ts) = check (depth + t.weight) ts

theorem Passes.append {kinds : List Token.Kind} {check : Int → List Token → Outcome}
    (h : Passes kinds check) {run : List Token} {depth : Int} (hkinds : ∀ t ∈ run, t.IsOf kinds)
    (hcovers : Token.Covers depth run) :
    check depth (run ++ rest) = check (depth + Token.excess run) rest := by
  induction run generalizing depth with
  | nil => rw [List.nil_append, Token.excess_nil, Int.add_zero]
  | cons t run ih =>
    obtain ⟨hdepth, hcovers⟩ := Token.covers_cons.mp hcovers
    rw [List.forall_mem_cons] at hkinds
    rw [List.cons_append, h _ _ _ hdepth hkinds.1 hcovers.nonneg, ih hkinds.2 hcovers,
      Token.excess_cons, Int.add_assoc]

/-- A token over which no run of the given kinds can go on where `depth` parentheses are open. -/
def Bars (kinds : List Token.Kind) (depth : Int) (t : Token) : Prop :=
  ¬ (t.IsOf kinds ∧ 0 ≤ depth + t.weight)

/-- Every list of tokens has a longest run in front. -/
theorem exists_longest_run (kinds : List Token.Kind) {depth : Int} (hdepth : 0 ≤ depth)
    (tokens : List Token) :
    ∃ run rest, tokens = run ++ rest ∧ (∀ t ∈ run, t.IsOf kinds) ∧ Token.Covers depth run ∧
      ∀ t ts, rest = t :: ts → Bars kinds (depth + Token.excess run) t := by
  induction tokens generalizing depth with
  | nil => exact ⟨[], [], rfl, by simp, Token.covers_nil.mpr hdepth, by simp⟩
  | cons t ts ih =>
    by_cases ht : t.IsOf kinds ∧ 0 ≤ depth + t.weight
    · obtain ⟨run, rest, hts, hkinds, hcovers, hbars⟩ := ih ht.2
      refine ⟨t :: run, rest, by rw [hts, List.cons_append],
        List.forall_mem_cons.mpr ⟨ht.1, hkinds⟩, Token.covers_cons.mpr ⟨hdepth, hcovers⟩, ?_⟩
      rwa [Token.excess_cons, ← Int.add_assoc]
    · refine ⟨[], t :: ts, rfl, by simp, Token.covers_nil.mpr hdepth, ?_⟩
      rintro t' ts' h
      cases h
      rwa [Token.excess_nil, Int.add_zero]

variable {kinds : List Token.Kind} {t : Token} {ts : List Token} {depth : Int}
  {κ : Type} [Depth κ] {count : κ}

/-- Of the tokens of a text, what bars a run is a parenthesis that closes nothing or a token of
another kind. -/
theorem Bars.cases (h : Bars kinds depth t) (hdepth : 0 ≤ depth) (ht : t.IsClassified) :
    t.isParen ")" = true ∧ depth = 0 ∨ t.kind ≠ .paren ∧ t.kind ∉ kinds := by
  by_cases hkind : t.kind = .paren
  · rcases ht.isParen_or hkind with hleft | hright
    · refine absurd ⟨.inl hleft, ?_⟩ h
      rw [Token.weight_of_left hleft]
      omega
    · have hneg : ¬ 0 ≤ depth + t.weight := fun hpos => h ⟨.inr (.inl hright), hpos⟩
      rw [Token.weight_of_right hright] at hneg
      exact .inl ⟨hright, by omega⟩
  · refine .inr ⟨hkind, fun hmem => h ⟨.inr (.inr hmem), ?_⟩⟩
    rw [Token.weight_of_kind_ne hkind]
    omega

theorem kind_of_parens (h : t.isParen "(" = true ∨ t.isParen ")" = true) : t.kind = .paren :=
  h.elim (fun h => (Token.isParen_iff.mp h).1) fun h => (Token.isParen_iff.mp h).1

theorem depthAfter_eq (h : t.isParen "(" = true ∨ t.isParen ")" = true) :
    depthAfter t depth = depth + t.weight := by
  rw [depthAfter]
  rcases h with hleft | hright
  · rw [if_pos (Token.isParen_iff.mp hleft).2, Token.weight_of_left hleft, Depth.up_int]
  · have hne : t.lexeme ≠ "(" := by
      rw [(Token.isParen_iff.mp hright).2]
      decide
    rw [if_neg hne, Token.weight_of_right hright, Depth.down_int]
    omega

/-- A check that passes over runs, with a clean end only at a token that is wanted where nothing is
open, finds nothing in a run and that token, and in nothing else. -/
theorem Passes.eq_clean {check : Int → List Token → Outcome} (h : Passes kinds check) {w : Wanted}
    (hc : ∀ t ∈ tokens, t.IsClassified) (hnil : ∀ depth, check depth [] ≠ clean rest)
    (hends : ∀ t, w.accepts t = true → check 0 (t :: rest) = clean rest)
    (hbars : ∀ depth t ts, 0 ≤ depth → t.IsClassified → Bars kinds depth t →
      check depth (t :: ts) = clean rest → w.accepts t = true ∧ depth = 0 ∧ ts = rest) :
    check 0 tokens = clean rest ↔
      ∃ (run : Run kinds) (stop : Terminal w), tokens = run.tokens ++ stop.1 :: rest := by
  constructor
  · intro hclean
    obtain ⟨run, behind, rfl, hkinds, hcovers, hlongest⟩ :=
      exists_longest_run kinds (Int.le_refl 0) tokens
    rw [h.append hkinds hcovers] at hclean
    cases behind with
    | nil => exact absurd hclean (hnil _)
    | cons t ts =>
      have ht : t.IsClassified := hc t (List.mem_append_right _ List.mem_cons_self)
      obtain ⟨hstop, hclosed, rfl⟩ :=
        hbars _ t ts hcovers.excess_nonneg ht (hlongest t ts rfl) hclean
      rw [Int.zero_add] at hclosed
      exact ⟨⟨run, hkinds, hcovers, hclosed⟩, ⟨t, hstop⟩, rfl⟩
  · rintro ⟨run, stop, rfl⟩
    rw [h.append run.allowed run.balanced.covers, run.balanced.excess_eq, Int.add_zero,
      hends _ stop.2]

/-- What has to be seen of a check that passes over runs: that it follows the parentheses, and that
it leaves the tokens of its kinds behind. -/
theorem Passes.of_cases {check : Int → List Token → Outcome} (hkinds : Token.Kind.paren ∉ kinds)
    (hparens : ∀ depth t ts, 0 ≤ depth → t.isParen "(" = true ∨ t.isParen ")" = true →
      0 ≤ depth + t.weight → check depth (t :: ts) = check (depth + t.weight) ts)
    (hmem : ∀ depth t ts, t.kind ∈ kinds → check depth (t :: ts) = check depth ts) :
    Passes kinds check := by
  intro depth t ts hdepth ht hbehind
  rcases or_assoc.mpr ht with hparen | hkind
  · exact hparens depth t ts hdepth hparen hbehind
  · have hne : t.kind ≠ .paren := fun h => hkinds (h ▸ hkind)
    rw [hmem depth t ts hkind, Token.weight_of_kind_ne hne, Int.add_zero]

theorem Passes.andThen {check : Int → List Token → Outcome} (h : Passes kinds check)
    (next : List Token → Outcome) : Passes kinds fun depth ts => (check depth ts).andThen next := by
  intro depth t ts hdepth ht hbehind
  exact congrArg (Outcome.andThen · next) (h depth t ts hdepth ht hbehind)

/-! ### Conditions -/

theorem condition_of_paren (block : Block) (h : t.kind = .paren) :
    condition block count (t :: ts) =
      if Depth.isZero (depthAfter t count) then clean ts
      else condition block (depthAfter t count) ts := by
  rw [condition, h]
  rfl

theorem condition_of_mem (block : Block) (h : t.kind ∈ conditionKinds) :
    condition block count (t :: ts) = condition block count ts := by
  rw [condition]
  cases hkind : t.kind <;> simp_all [conditionKinds]

theorem condition_of_notMem (block : Block) (hparen : t.kind ≠ .paren)
    (h : t.kind ∉ conditionKinds) :
    condition block count (t :: ts) =
      (condition block count ts).report [faultAt t (.inCondition block t.lexeme)] := by
  rw [condition]
  cases hkind : t.kind <;> simp_all [conditionKinds]

theorem passes_condition (block : Block) :
    Passes conditionKinds fun depth => condition block (depth + 1) := by
  refine Passes.of_cases (by decide) (fun depth t ts _ hparens hbehind => ?_)
    fun depth t ts hkind => condition_of_mem block hkind
  have hafter : depthAfter t (depth + 1) = depth + t.weight + 1 := by
    rw [depthAfter_eq hparens]
    omega
  have hopen : ¬ Depth.isZero (depth + t.weight + 1) = true := by
    rw [Depth.isZero_int]
    omega
  show condition block (depth + 1) (t :: ts) = condition block (depth + t.weight + 1) ts
  rw [condition_of_paren block (kind_of_parens hparens), hafter, if_neg hopen]

theorem condition_of_closes (block : Block) (h : t.isParen ")" = true) :
    condition block (0 + 1 : Int) (t :: ts) = clean ts := by
  have hafter : depthAfter t (0 + 1 : Int) = 0 := by
    rw [depthAfter_eq (.inr h), Token.weight_of_right h]
    rfl
  rw [condition_of_paren block (Token.isParen_iff.mp h).1, hafter]
  exact if_pos rfl

/-- A condition is a run and the parenthesis that closes it. -/
theorem condition_eq_clean (block : Block) (hc : ∀ t ∈ tokens, t.IsClassified) :
    condition block (Depth.one : Int) tokens = clean rest ↔
      ∃ (run : Run conditionKinds) (right : Right), tokens = run.tokens ++ right.1 :: rest := by
  refine (passes_condition block).eq_clean hc (fun depth h => ?_)
    (fun t ht => condition_of_closes block ht) fun depth t ts hdepth ht hbars h => ?_
  · cases congrArg complete h
  · rcases hbars.cases hdepth ht with ⟨hright, rfl⟩ | ⟨hparen, hkind⟩
    · rw [condition_of_closes block hright, clean_inj] at h
      exact ⟨hright, rfl, h⟩
    · rw [condition_of_notMem block hparen hkind, report_eq_clean] at h
      cases h.1

/-! ### Arguments -/

theorem arguments_of_terminator (h : t.kind = .terminator) :
    arguments count (t :: ts) = clean (t :: ts) := by
  rw [arguments, if_pos (.inl h)]
  rfl

theorem arguments_of_closes (h : t.isParen ")" = true) :
    arguments (0 : Int) (t :: ts) = clean (t :: ts) := by
  rw [arguments, if_pos (.inr ⟨rfl, h⟩)]
  rfl

theorem arguments_of_paren (h : t.kind = .paren)
    (hopen : Depth.isZero count = true → ¬ t.isParen ")" = true) :
    arguments count (t :: ts) = arguments (depthAfter t count) ts := by
  have hgoes : ¬ (t.kind = .terminator ∨ (Depth.isZero count = true ∧ t.isParen ")" = true)) := by
    rw [h]
    rintro (hk | ⟨hzero, hright⟩)
    · cases hk
    · exact hopen hzero hright
  rw [arguments, if_neg hgoes, h]

theorem arguments_of_mem (h : t.kind ∈ argumentKinds) :
    arguments count (t :: ts) = arguments count ts := by
  rw [arguments]
  cases hkind : t.kind <;> simp_all [argumentKinds, Token.isParen]

theorem arguments_of_notMem (hparen : t.kind ≠ .paren) (hstop : t.kind ≠ .terminator)
    (h : t.kind ∉ argumentKinds) :
    arguments count (t :: ts) =
      (arguments count ts).report [faultAt t (.inWrite t.lexeme)] := by
  rw [arguments]
  cases hkind : t.kind <;> simp_all [argumentKinds, Token.isParen]

theorem passes_arguments : Passes argumentKinds arguments := by
  refine Passes.of_cases (by decide) (fun depth t ts _ hparens hbehind => ?_)
    fun depth t ts hkind => arguments_of_mem hkind
  have hopen : Depth.isZero depth = true → ¬ t.isParen ")" = true := by
    intro hzero hright
    rw [Depth.isZero_int] at hzero
    rw [Token.weight_of_right hright] at hbehind
    omega
  rw [arguments_of_paren (kind_of_parens hparens) hopen, depthAfter_eq hparens]

/-- Further arguments are a run and the parenthesis that closes it. -/
theorem arguments_eq_clean (hc : ∀ t ∈ tokens, t.IsClassified) :
    (arguments (Depth.zero : Int) tokens).andThen closeWrite = clean rest ↔
      ∃ (run : Run argumentKinds) (right : Right), tokens = run.tokens ++ right.1 :: rest := by
  refine (passes_arguments.andThen closeWrite).eq_clean hc (fun depth h => ?_)
    (fun t ht => ?_) fun depth t ts hdepth ht hbars h => ?_
  · cases congrArg complete h
  · rw [arguments_of_closes ht, andThen_eq_clean]
    exact ⟨_, rfl, closeWrite_eq_clean.mpr ⟨⟨t, ht⟩, rfl⟩⟩
  · obtain ⟨mid, hmid, hclose⟩ := andThen_eq_clean.mp h
    obtain ⟨right, rfl⟩ := closeWrite_eq_clean.mp hclose
    rcases hbars.cases hdepth ht with ⟨hright, rfl⟩ | ⟨hparen, hkind⟩
    · rw [arguments_of_closes hright, clean_inj] at hmid
      exact ⟨hright, rfl, (List.cons.inj hmid).2⟩
    · by_cases hstop : t.kind = .terminator
      · rw [arguments_of_terminator hstop, clean_inj] at hmid
        rw [(List.cons.inj hmid).1] at hparen
        exact absurd (Token.isParen_iff.mp right.2).1 hparen
      · rw [arguments_of_notMem hparen hstop hkind, report_eq_clean] at hmid
        cases hmid.1

/-! ### Right sides -/

theorem rightSide_of_terminator (h : t.kind = .terminator) :
    rightSide count (t :: ts) = ⟨true, openAssignment count (t :: ts), t :: ts⟩ := by
  rw [rightSide, h]

theorem openAssignment_eq_nil : openAssignment depth tokens = [] ↔ depth ≤ 0 := by
  rw [openAssignment, Depth.sign_int, ite_eq_right_iff, Depth.signOfInt_eq_gt]
  constructor
  · intro h
    exact Int.not_lt.mp fun hpos => by cases h hpos
  · intro h hpos
    omega

theorem rightSide_of_paren (h : t.kind = .paren) :
    rightSide count (t :: ts) =
      if Depth.sign (depthAfter t count) = .lt then ⟨true, [faultAt t .strayClose], ts⟩
      else rightSide (depthAfter t count) ts := by
  rw [rightSide, h]

theorem rightSide_of_mem (h : t.kind ∈ valueKinds) :
    rightSide count (t :: ts) = rightSide count ts := by
  rw [rightSide]
  cases hkind : t.kind <;> simp_all [valueKinds]

theorem rightSide_of_notMem (hparen : t.kind ≠ .paren) (hstop : t.kind ≠ .terminator)
    (h : t.kind ∉ valueKinds) :
    rightSide count (t :: ts) =
      (rightSide count ts).report [faultAt t (.inAssignment t.lexeme)] := by
  rw [rightSide]
  cases hkind : t.kind <;> simp_all [valueKinds]

theorem passes_rightSide : Passes valueKinds rightSide := by
  refine Passes.of_cases (by decide) (fun depth t ts _ hparens hbehind => ?_)
    fun depth t ts hkind => rightSide_of_mem hkind
  have hopen : ¬ Depth.sign (depth + t.weight) = .lt := by
    rw [Depth.sign_int, Depth.signOfInt_eq_lt]
    omega
  rw [rightSide_of_paren (kind_of_parens hparens), depthAfter_eq hparens, if_neg hopen]

/-- The right side of an assignment is a run and the end of the statement. -/
theorem rightSide_eq_clean (f : Fault) (hc : ∀ t ∈ tokens, t.IsClassified) :
    (rightSide (Depth.zero : Int) tokens).andThen (expectTerminator f) = clean rest ↔
      ∃ (run : Run valueKinds) (stop : Stop), tokens = run.tokens ++ stop.1 :: rest := by
  refine (passes_rightSide.andThen (expectTerminator f)).eq_clean hc (fun depth h => ?_)
    (fun t ht => ?_) fun depth t ts hdepth ht hbars h => ?_
  · obtain ⟨mid, hmid, hend⟩ := andThen_eq_clean.mp h
    obtain ⟨stop, rfl⟩ := expectTerminator_eq_clean.mp hend
    cases congrArg Outcome.rest hmid
  · rw [rightSide_of_terminator (beq_iff_eq.mp ht), andThen_eq_clean]
    exact ⟨_, rfl, expectTerminator_eq_clean.mpr ⟨⟨t, ht⟩, rfl⟩⟩
  · obtain ⟨mid, hmid, hend⟩ := andThen_eq_clean.mp h
    obtain ⟨stop, rfl⟩ := expectTerminator_eq_clean.mp hend
    rcases hbars.cases hdepth ht with ⟨hright, rfl⟩ | ⟨hparen, hkind⟩
    · rw [rightSide_of_paren (Token.isParen_iff.mp hright).1, depthAfter_eq (.inr hright),
        Token.weight_of_right hright] at hmid
      cases congrArg diagnostics hmid
    · by_cases hstop : t.kind = .terminator
      · rw [rightSide_of_terminator hstop] at hmid
        have hopen : openAssignment depth (t :: ts) = [] := congrArg diagnostics hmid
        have hrest := List.cons.inj (congrArg Outcome.rest hmid)
        rw [openAssignment_eq_nil] at hopen
        exact ⟨beq_iff_eq.mpr hstop, by omega, hrest.2⟩
      · rw [rightSide_of_notMem hparen hstop hkind, report_eq_clean] at hmid
        cases hmid.1

end Check

end Stepwise
