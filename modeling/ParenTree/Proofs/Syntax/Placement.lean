import Mathlib.Data.List.Forall2
import ParenTree.Proofs.Syntax.Recognition
import ParenTree.Proofs.Syntax.Routine

-- Where tokens stand means nothing to the parser. It copies the places of tokens into trees and messages, and never looks at
-- them: token lists that differ in their places only are read in the same way, and what relates the places of their tokens
-- relates the places of their trees and messages as well.

namespace ParenTree

variable (R : Span → Span → Prop)

-- A relation on places that is kept if places are put together.
def Span.Congruent : Prop :=
  ∀ s s' t t', R s s' → R t t' → R (s.through t) (s'.through t')

structure Token.Alike (t t' : Token) : Prop where
  kind : t'.kind = t.kind
  lexeme : t'.lexeme = t.lexeme
  span : R t.span t'.span

namespace Node

mutual

-- The same tree with related places.
def Alike : Node → Node → Prop
  | nop s, m => ∃ s', m = nop s' ∧ R s s'
  | literal s kind value, m => ∃ s', m = literal s' kind value ∧ R s s'
  | ident s name, m => ∃ s', m = ident s' name ∧ R s s'
  | unary s op operand, m => ∃ s' operand', m = unary s' op operand' ∧ R s s' ∧ operand.Alike operand'
  | binary s left op right, m =>
    ∃ s' left' right', m = binary s' left' op right' ∧ R s s' ∧ left.Alike left' ∧ right.Alike right'
  | assign s target value, m =>
    ∃ s' target' value', m = assign s' target' value' ∧ R s s' ∧ target.Alike target' ∧ value.Alike value'
  | call s callee args, m =>
    ∃ s' callee' args', m = call s' callee' args' ∧ R s s' ∧ callee.Alike callee' ∧ AllAlike args args'
  | list s items, m => ∃ s' items', m = list s' items' ∧ R s s' ∧ AllAlike items items'
  | block s statements, m => ∃ s' statements', m = block s' statements' ∧ R s s' ∧ AllAlike statements statements'
  | conditional s condition thenBlock elseBranch, m =>
    ∃ s' condition' thenBlock' elseBranch', m = conditional s' condition' thenBlock' elseBranch' ∧ R s s' ∧
      condition.Alike condition' ∧ thenBlock.Alike thenBlock' ∧ elseBranch.Alike elseBranch'
  | letStmt s name value, m => ∃ s' value', m = letStmt s' name value' ∧ R s s' ∧ value.Alike value'
  | returnStmt s value, m => ∃ s' value', m = returnStmt s' value' ∧ R s s' ∧ value.Alike value'
  | function s name params body, m => ∃ s' body', m = function s' name params body' ∧ R s s' ∧ body.Alike body'

def AllAlike : List Node → List Node → Prop
  | [], ms => ms = []
  | n :: ns, ms => ∃ m ms', ms = m :: ms' ∧ n.Alike m ∧ AllAlike ns ms'

end

variable {R}

theorem Alike.span {n m : Node} (h : n.Alike R m) : R n.span m.span := by
  cases n
  case nop | literal | ident =>
    obtain ⟨_, rfl, hs⟩ := h
    exact hs
  case unary | list | block | letStmt | returnStmt | function =>
    obtain ⟨_, _, rfl, hs, _⟩ := h
    exact hs
  case binary | assign | call =>
    obtain ⟨_, _, _, rfl, hs, _⟩ := h
    exact hs
  case conditional =>
    obtain ⟨_, _, _, _, rfl, hs, _⟩ := h
    exact hs

mutual

-- Functions that bring related places together bring alike trees together.
theorem Alike.map_eq {f g : Span → Span} (hfg : ∀ s s', R s s' → f s = g s') (onValue : LiteralKind → String → String)
    (n : Node) {m : Node} (h : n.Alike R m) : n.map f onValue = m.map g onValue := by
  cases n
  case nop | literal | ident =>
    obtain ⟨_, rfl, hs⟩ := h
    simp only [map, hfg _ _ hs]
  case unary | letStmt | returnStmt | function =>
    obtain ⟨_, _, rfl, hs, hn⟩ := h
    simp only [map, hfg _ _ hs, Alike.map_eq hfg onValue _ hn]
  case list | block =>
    obtain ⟨_, _, rfl, hs, hn⟩ := h
    simp only [map, hfg _ _ hs, AllAlike.map_eq hfg onValue _ hn]
  case binary | assign =>
    obtain ⟨_, _, _, rfl, hs, hn₁, hn₂⟩ := h
    simp only [map, hfg _ _ hs, Alike.map_eq hfg onValue _ hn₁, Alike.map_eq hfg onValue _ hn₂]
  case call =>
    obtain ⟨_, _, _, rfl, hs, hn, hns⟩ := h
    simp only [map, hfg _ _ hs, Alike.map_eq hfg onValue _ hn, AllAlike.map_eq hfg onValue _ hns]
  case conditional =>
    obtain ⟨_, _, _, _, rfl, hs, hn₁, hn₂, hn₃⟩ := h
    simp only [map, hfg _ _ hs, Alike.map_eq hfg onValue _ hn₁, Alike.map_eq hfg onValue _ hn₂,
      Alike.map_eq hfg onValue _ hn₃]

theorem AllAlike.map_eq {f g : Span → Span} (hfg : ∀ s s', R s s' → f s = g s') (onValue : LiteralKind → String → String)
    (ns : List Node) {ms : List Node} (h : AllAlike R ns ms) : mapAll f onValue ns = mapAll g onValue ms := by
  cases ns
  case nil =>
    obtain rfl := h
    rfl
  case cons =>
    obtain ⟨_, _, rfl, hn, hns⟩ := h
    simp only [mapAll, Alike.map_eq hfg onValue _ hn, AllAlike.map_eq hfg onValue _ hns]

end

theorem AllAlike.getLastD {ns ms : List Node} {n m : Node} (h : AllAlike R ns ms) (hd : n.Alike R m) :
    (ns.getLastD n).Alike R (ms.getLastD m) := by
  induction ns generalizing ms n m
  case nil =>
    obtain rfl := h
    exact hd
  case cons n' ns hi =>
    obtain ⟨m', ms, rfl, hn, hns⟩ := h
    rw [List.getLastD_cons, List.getLastD_cons]
    exact hi hns hn

end Node

namespace Parser

-- The same task with related places, and how their values are related.
inductive Task.Alike : (task task' : Task) → (task.Value → task'.Value → Prop) → Prop
  | statements {closer} : Alike (.procedure (.statements closer)) (.procedure (.statements closer)) (Node.AllAlike R)
  | statement : Alike (.procedure .statement) (.procedure .statement) (Node.Alike R)
  | letStatement {t t' : Token} :
    t.Alike R t' → Alike (.procedure (.letStatement t)) (.procedure (.letStatement t')) (Node.Alike R)
  | returnStatement {t t' : Token} :
    t.Alike R t' → Alike (.procedure (.returnStatement t)) (.procedure (.returnStatement t')) (Node.Alike R)
  | function {t t' : Token} :
    t.Alike R t' → Alike (.procedure (.function t)) (.procedure (.function t')) (Node.Alike R)
  | block : Alike (.procedure .block) (.procedure .block) (Node.Alike R)
  | expr : Alike (.procedure .expr) (.procedure .expr) (Node.Alike R)
  | binary {levels} : Alike (.procedure (.binary levels)) (.procedure (.binary levels)) (Node.Alike R)
  | binaryRest {ops tighter} {left left' : Node} :
    left.Alike R left' →
    Alike (.procedure (.binaryRest ops tighter left)) (.procedure (.binaryRest ops tighter left')) (Node.Alike R)
  | unary : Alike (.procedure .unary) (.procedure .unary) (Node.Alike R)
  | call : Alike (.procedure .call) (.procedure .call) (Node.Alike R)
  | callRest {callee callee' : Node} :
    callee.Alike R callee' → Alike (.procedure (.callRest callee)) (.procedure (.callRest callee')) (Node.Alike R)
  | primary : Alike (.procedure .primary) (.procedure .primary) (Node.Alike R)
  | conditional {t t' : Token} :
    t.Alike R t' → Alike (.procedure (.conditional t)) (.procedure (.conditional t')) (Node.Alike R)
  | otherwise : Alike (.procedure .otherwise) (.procedure .otherwise) (Node.Alike R)
  | exprList {closer} : Alike (.procedure (.exprList closer)) (.procedure (.exprList closer)) (Node.AllAlike R)
  | params : Alike .params .params Eq

inductive Outcome.Alike {α β : Type} (V : α → β → Prop) : Outcome α → Outcome β → Prop
  | value {a b ts ts'} : V a b → List.Forall₂ (Token.Alike R) ts ts' → Alike V (.value a ts) (.value b ts')
  | raised {s s' cause ts ts'} :
    R s s' → List.Forall₂ (Token.Alike R) ts ts' → Alike V (.raised s cause ts) (.raised s' cause ts')
  | ranOut : Alike V .ranOut .ranOut

-- Routines that make the same moves, whatever the places are.
inductive Routine.Alike {α β : Type} (V : α → β → Prop) : Routine α → Routine β → Prop
  | done {a b} : V a b → Alike V (.done a) (.done b)
  | raise {s s' cause} : R s s' → Alike V (.raise s cause) (.raise s' cause)
  | peek {next next'} : (∀ t t' : Token, t.Alike R t' → Alike V (next t) (next' t')) → Alike V (.peek next) (.peek next')
  | advance {t t' next next'} : Alike V next next' → Alike V (.advance t next) (.advance t' next')
  | pass {p next next'} : Alike V next next' → Alike V (.pass p next) (.pass p next')
  | run {task task' : Task} {W : task.Value → task'.Value → Prop} {next next'} :
    task.Alike R task' W → (∀ a b, W a b → Alike V (next a) (next' b)) → Alike V (.run task next) (.run task' next')

variable {R}

namespace Routine.Alike

variable {α β : Type} {V : α → β → Prop}

theorem want {what : Expectation} {t t' : Token} (h : t.Alike R t') :
    Alike R V (.want what t : Routine α) (.want what t' : Routine β) :=
  .raise h.span

theorem need {kind : Token.Kind} {what : Expectation} {next : Token → Routine α} {next' : Token → Routine β}
    (h : ∀ t t' : Token, t.Alike R t' → Alike R V (next t) (next' t')) :
    Alike R V (.need kind what next) (.need kind what next') := by
  refine .peek fun t t' ht => ?_
  rw [ht.kind]
  split
  case isTrue => exact .advance (h t t' ht)
  case isFalse => exact .want ht

theorem runDone {task task' : Task} {W : task.Value → task'.Value → Prop} (h : task.Alike R task' W) :
    Alike R W (.run task .done) (.run task' .done) :=
  .run h fun _ _ hw => .done hw

end Routine.Alike

theorem forall₂_dropWhile {p : Token.Kind → Bool} {ts ts' : List Token} (h : List.Forall₂ (Token.Alike R) ts ts') :
    List.Forall₂ (Token.Alike R) (ts.dropWhile (p ·.kind)) (ts'.dropWhile (p ·.kind)) := by
  induction h
  case nil => exact .nil
  case cons t t' ts ts' ht hts hi =>
    rw [List.dropWhile_cons, List.dropWhile_cons, ht.kind]
    split
    case isTrue => exact hi
    case isFalse => exact .cons ht hts

namespace Procedure

theorem statements_alike {closer : Token.Kind} :
    Routine.Alike R (Node.AllAlike R) (statements closer).routine (statements closer).routine := by
  refine .pass (.peek fun t t' ht => ?_)
  rw [ht.kind]
  split
  case isTrue => exact .done rfl
  case isFalse =>
    split
    case isTrue => exact .want ht
    case isFalse =>
      refine .run .statement fun n n' hn => .peek fun u u' hu => ?_
      rw [hu.kind]
      split
      case isTrue => exact .done ⟨_, _, rfl, hn, rfl⟩
      case isFalse =>
        split
        case isTrue => exact .run .statements fun ns ns' hns => .done ⟨_, _, rfl, hn, hns⟩
        case isFalse => exact .want hu

theorem statement_alike :
    Routine.Alike R (Node.Alike R) statement.routine statement.routine := by
  refine .peek fun t t' ht => ?_
  rw [ht.kind]
  cases t.kind
  case kwLet => exact .advance (.runDone (.letStatement ht))
  case kwReturn => exact .advance (.runDone (.returnStatement ht))
  case kwFn => exact .advance (.runDone (.function ht))
  all_goals exact .runDone .expr

theorem letStatement_alike (hR : Span.Congruent R) {keyword keyword' : Token} (hk : keyword.Alike R keyword') :
    Routine.Alike R (Node.Alike R) (letStatement keyword).routine (letStatement keyword').routine := by
  refine .need fun name name' hn => .peek fun t t' ht => ?_
  rw [ht.kind, hn.lexeme]
  split
  case isTrue => exact .advance (.run .expr fun n n' hv => .done ⟨_, _, rfl, hR _ _ _ _ hk.span hv.span, hv⟩)
  case isFalse => exact .want ht

theorem returnStatement_alike (hR : Span.Congruent R) {keyword keyword' : Token} (hk : keyword.Alike R keyword') :
    Routine.Alike R (Node.Alike R) (returnStatement keyword).routine (returnStatement keyword').routine := by
  refine .peek fun t t' ht => ?_
  rw [ht.kind]
  split
  case isTrue => exact .done ⟨_, _, rfl, hk.span, _, rfl, hk.span⟩
  case isFalse => exact .run .expr fun n n' hv => .done ⟨_, _, rfl, hR _ _ _ _ hk.span hv.span, hv⟩

theorem function_alike (hR : Span.Congruent R) {keyword keyword' : Token} (hk : keyword.Alike R keyword') :
    Routine.Alike R (Node.Alike R) (function keyword).routine (function keyword').routine := by
  refine .need fun name name' hn => .need fun _ _ _ => .run .params fun names names' hp => ?_
  rw [hn.lexeme, ← hp]
  refine .need fun _ _ _ => .run .block fun n n' hb => ?_
  exact .done ⟨_, _, rfl, hR _ _ _ _ hk.span hb.span, hb⟩

theorem block_alike (hR : Span.Congruent R) :
    Routine.Alike R (Node.Alike R) block.routine block.routine := by
  refine .need fun opener opener' ho => .run .statements fun ns ns' hns => .need fun closer closer' hc => ?_
  exact .done ⟨_, _, rfl, hR _ _ _ _ ho.span hc.span, hns⟩

theorem expr_alike (hR : Span.Congruent R) :
    Routine.Alike R (Node.Alike R) expr.routine expr.routine := by
  refine .run .binary fun n n' hn => .peek fun t t' ht => ?_
  rw [ht.kind]
  split
  case isFalse => exact .done hn
  case isTrue =>
    have hs := hn.span
    cases n
    case ident =>
      have hn' := hn
      obtain ⟨_, rfl, _⟩ := hn'
      refine .advance (.run .expr fun m m' hm => ?_)
      exact .done ⟨_, _, _, rfl, hR _ _ _ _ hs hm.span, hn, hm⟩
    case nop | literal =>
      obtain ⟨_, rfl, _⟩ := hn
      exact .raise hs
    case unary | list | block | letStmt | returnStmt | function =>
      obtain ⟨_, _, rfl, _⟩ := hn
      exact .raise hs
    case binary | assign | call =>
      obtain ⟨_, _, _, rfl, _⟩ := hn
      exact .raise hs
    case conditional =>
      obtain ⟨_, _, _, _, rfl, _⟩ := hn
      exact .raise hs

theorem binary_alike {levels : List (List Token.Kind)} :
    Routine.Alike R (Node.Alike R) (binary levels).routine (binary levels).routine := by
  cases levels
  case nil => exact .runDone .unary
  case cons => exact .run .binary fun n n' hn => .runDone (.binaryRest hn)

theorem binaryRest_alike (hR : Span.Congruent R) {ops : List Token.Kind} {tighter : List (List Token.Kind)}
    {left left' : Node} (hl : left.Alike R left') :
    Routine.Alike R (Node.Alike R) (binaryRest ops tighter left).routine (binaryRest ops tighter left').routine := by
  refine .peek fun t t' ht => ?_
  rw [ht.kind, ht.lexeme]
  split
  case isTrue =>
    refine .advance (.run .binary fun n n' hn => .runDone (.binaryRest ?_))
    exact ⟨_, _, _, rfl, hR _ _ _ _ hl.span hn.span, hl, hn⟩
  case isFalse => exact .done hl

theorem unary_alike (hR : Span.Congruent R) :
    Routine.Alike R (Node.Alike R) unary.routine unary.routine := by
  refine .peek fun t t' ht => ?_
  rw [ht.kind, ht.lexeme]
  split
  case isTrue => exact .advance (.run .unary fun n n' hn => .done ⟨_, _, rfl, hR _ _ _ _ ht.span hn.span, hn⟩)
  case isFalse => exact .runDone .call

theorem call_alike : Routine.Alike R (Node.Alike R) call.routine call.routine := by
  exact .run .primary fun n n' hn => .runDone (.callRest hn)

theorem callRest_alike (hR : Span.Congruent R) {callee callee' : Node} (hc : callee.Alike R callee') :
    Routine.Alike R (Node.Alike R) (callRest callee).routine (callRest callee').routine := by
  refine .peek fun t t' ht => ?_
  rw [ht.kind]
  split
  case isTrue =>
    refine .advance (.run .exprList fun ns ns' hns => .need fun u u' hu => .runDone (.callRest ?_))
    exact ⟨_, _, _, rfl, hR _ _ _ _ hc.span hu.span, hc, hns⟩
  case isFalse => exact .done hc

theorem primary_alike (hR : Span.Congruent R) :
    Routine.Alike R (Node.Alike R) primary.routine primary.routine := by
  refine .peek fun t t' ht => ?_
  rw [ht.kind, ht.lexeme]
  cases t.kind
  case int | float | string | kwTrue | kwFalse | kwNop | ident => exact .advance (.done ⟨_, rfl, ht.span⟩)
  case openParen => exact .advance (.run .expr fun n n' hn => .need fun _ _ _ => .done hn)
  case openBracket =>
    refine .advance (.run .exprList fun ns ns' hns => .need fun u u' hu => ?_)
    exact .done ⟨_, _, rfl, hR _ _ _ _ ht.span hu.span, hns⟩
  case openBrace => exact .runDone .block
  case kwIf => exact .advance (.runDone (.conditional ht))
  all_goals exact .want ht

theorem conditional_alike (hR : Span.Congruent R) {keyword keyword' : Token} (hk : keyword.Alike R keyword') :
    Routine.Alike R (Node.Alike R) (conditional keyword).routine (conditional keyword').routine := by
  refine .run .expr fun n n' hn => .run .block fun m m' hm => .peek fun t t' ht => ?_
  rw [ht.kind]
  split
  case isTrue =>
    refine .advance (.run .otherwise fun e e' he => ?_)
    exact .done ⟨_, _, _, _, rfl, hR _ _ _ _ hk.span he.span, hn, hm, he⟩
  case isFalse => exact .done ⟨_, _, _, _, rfl, hR _ _ _ _ hk.span hm.span, hn, hm, _, rfl, hm.span⟩

theorem otherwise_alike :
    Routine.Alike R (Node.Alike R) otherwise.routine otherwise.routine := by
  refine .peek fun t t' ht => ?_
  rw [ht.kind]
  split
  case isTrue => exact .advance (.runDone (.conditional ht))
  case isFalse => exact .runDone .block

theorem exprList_alike {closer : Token.Kind} :
    Routine.Alike R (Node.AllAlike R) (exprList closer).routine (exprList closer).routine := by
  refine .pass (.peek fun t t' ht => ?_)
  rw [ht.kind]
  split
  case isTrue => exact .done rfl
  case isFalse =>
    refine .run .expr fun n n' hn => .pass (.peek fun u u' hu => ?_)
    rw [hu.kind]
    split
    case isTrue => exact .advance (.run .exprList fun ns ns' hns => .done ⟨_, _, rfl, hn, hns⟩)
    case isFalse => exact .done ⟨_, _, rfl, hn, rfl⟩

theorem params_alike : Routine.Alike R Eq Task.params.routine Task.params.routine := by
  refine .peek fun t t' ht => ?_
  rw [ht.kind, ht.lexeme]
  split
  case isTrue => exact .done rfl
  case isFalse =>
    split
    case isFalse => exact .want ht
    case isTrue =>
      refine .advance (.peek fun u u' hu => ?_)
      rw [hu.kind]
      split
      case isTrue => exact .advance (.run .params fun names names' hp => .done (congrArg _ hp))
      case isFalse => exact .done rfl

end Procedure

-- Every task makes the same moves wherever its tokens stand, and builds its value from parts that are alike.
theorem Task.Alike.routine (hR : Span.Congruent R) {task task' : Task} {W : task.Value → task'.Value → Prop}
    (h : Task.Alike R task task' W) : Routine.Alike R W task.routine task'.routine := by
  cases h
  case statements => exact Procedure.statements_alike
  case statement => exact Procedure.statement_alike
  case letStatement h => exact Procedure.letStatement_alike hR h
  case returnStatement h => exact Procedure.returnStatement_alike hR h
  case function h => exact Procedure.function_alike hR h
  case block => exact Procedure.block_alike hR
  case expr => exact Procedure.expr_alike hR
  case binary => exact Procedure.binary_alike
  case binaryRest h => exact Procedure.binaryRest_alike hR h
  case unary => exact Procedure.unary_alike hR
  case call => exact Procedure.call_alike
  case callRest h => exact Procedure.callRest_alike hR h
  case primary => exact Procedure.primary_alike hR
  case conditional h => exact Procedure.conditional_alike hR h
  case otherwise => exact Procedure.otherwise_alike
  case exprList => exact Procedure.exprList_alike
  case params => exact Procedure.params_alike

-- Routines that make the same moves end in the same way. The induction is on one run; the other one is told apart by its
-- routine, and by the heads of token lists that are alike.
theorem Runs.alike (hR : Span.Congruent R) {α β : Type} {V : α → β → Prop} {r : Routine α} {r' : Routine β}
    {ts ts' : List Token} {out : Outcome α} {out' : Outcome β} (h : Runs r ts out) (h' : Runs r' ts' out')
    (hr : Routine.Alike R V r r') (hts : List.Forall₂ (Token.Alike R) ts ts') : Outcome.Alike R V out out' := by
  induction h generalizing β ts'
  case done =>
    cases hr with | done hv =>
    cases h'
    exact .value hv hts
  case raise =>
    cases hr with | raise hs =>
    cases h'
    exact .raised hs hts
  case peek hi =>
    cases hr with | peek hn =>
    cases hts with | cons ht hts =>
    cases h' with | peek h' =>
    exact hi h' (hn _ _ ht) (.cons ht hts)
  case peekNothing =>
    cases hr with | peek hn =>
    cases hts
    cases h'
    exact .ranOut
  case advance hi =>
    cases hr with | advance hn =>
    cases h' with | advance h' =>
    cases hts with | cons ht hts =>
    exact hi h' hn hts
  case pass hi =>
    cases hr with | pass hn =>
    cases h' with | pass h' =>
    exact hi h' hn (forall₂_dropWhile hts)
  case run hi₁ hi₂ =>
    cases hr with | run ht hn =>
    cases h'
    case run h₁ h₂ =>
      cases hi₁ h₁ (ht.routine hR) hts with | value hw hrest =>
      exact hi₂ h₂ (hn _ _ hw) hrest
    case runRaised h₁ | runRanOut h₁ => cases hi₁ h₁ (ht.routine hR) hts
  case runRaised hi =>
    cases hr with | run ht hn =>
    cases h'
    case run h₁ _ | runRanOut h₁ => cases hi h₁ (ht.routine hR) hts
    case runRaised h₁ =>
      cases hi h₁ (ht.routine hR) hts with | raised hs hrest =>
      exact .raised hs hrest
  case runRanOut hi =>
    cases hr with | run ht hn =>
    cases h'
    case run h₁ _ | runRaised h₁ => cases hi h₁ (ht.routine hR) hts
    case runRanOut => exact .ranOut

end Parser

namespace Program

open ParenTree.Parser

def Alike (p p' : Program) : Prop :=
  R p.span p'.span ∧ Node.AllAlike R p.body p'.body

-- The same reading of token lists: alike programs, or the same complaint at related places.
inductive Agree : Except Failure Program → Except Failure Program → Prop
  | programs {p p'} : Alike R p p' → Agree (.ok p) (.ok p')
  | faults {s s' cause} :
    R s s' → Agree (.error (.fault (.syntactic s cause))) (.error (.fault (.syntactic s' cause)))
  | outOfTokens : Agree (.error .outOfTokens) (.error .outOfTokens)

variable {R}

theorem extent_alike (hR : Span.Congruent R) {eof eof' : Token} {ns ns' : List Node} (he : eof.Alike R eof')
    (h : Node.AllAlike R ns ns') : R (Grammar.extent eof ns) (Grammar.extent eof' ns') := by
  cases ns
  case nil =>
    obtain rfl := h
    exact he.span
  case cons n ns =>
    have hns := h
    obtain ⟨m, ms, rfl, hn, _⟩ := h
    exact hR _ _ _ _ hn.span (hns.getLastD hn).span

theorem ofTokens_agree (hR : Span.Congruent R) {ts ts' : List Token} (h : List.Forall₂ (Token.Alike R) ts ts') :
    Agree R (ofTokens ts) (ofTokens ts') := by
  obtain ⟨out, hr, -⟩ := Task.exists_runs (.procedure (.statements .endOfInput)) ts
  obtain ⟨out', hr', -⟩ := Task.exists_runs (.procedure (.statements .endOfInput)) ts'
  rw [ofTokens_of_runs hr, ofTokens_of_runs hr']
  cases hr.alike hR hr' (Task.Alike.statements.routine hR) h with
  | value hns hrest =>
    cases hrest
    case nil => exact .outOfTokens
    case cons he _ => exact .programs ⟨extent_alike hR he hns, hns⟩
  | raised hs _ => exact .faults hs
  | ranOut => exact .outOfTokens

end Program

end ParenTree
