import ParenTree.Proofs.Syntax.Grammar
import ParenTree.Proofs.Syntax.Procedure

-- What the parser reads is derived by the grammar: a procedure that succeeds has taken a word of its category from the front
-- of the tokens, and its value is the tree of that word.

namespace ParenTree.Parser

open Grammar

namespace Procedure

-- The word that a procedure has taken, and its value. What reads on behind a left operand or a callee lengthens its word, and
-- what reads on behind a keyword completes the word that the keyword begins.
def Describes : (p : Procedure) → List Token → p.Value → Prop
  | statements _, w, ns => Derives .body w ns
  | statement, w, n => Derives .statement w n
  | letStatement keyword, w, n => keyword.kind = .kwLet → Derives .statement (keyword :: w) n
  | returnStatement keyword, w, n => keyword.kind = .kwReturn → Derives .statement (keyword :: w) n
  | function keyword, w, n => keyword.kind = .kwFn → Derives .statement (keyword :: w) n
  | block, w, n => Derives .block w n
  | expr, w, n => Derives .expr w n
  | binary levels, w, n => Derives (.tier levels) w n
  | binaryRest ops tighter left, w, n =>
    ∀ w₀, Derives (.tier (ops :: tighter)) w₀ left → Derives (.tier (ops :: tighter)) (w₀ ++ w) n
  | unary, w, n => Derives .unary w n
  | call, w, n => Derives .call w n
  | callRest callee, w, n => ∀ w₀, Derives .call w₀ callee → Derives .call (w₀ ++ w) n
  | primary, w, n => Derives .primary w n
  | conditional keyword, w, n => keyword.kind = .kwIf → Derives .conditional (keyword :: w) n
  | otherwise, w, n => Derives .branch w n
  | exprList _, w, ns => Derives .exprList w ns

def SoundAt (p : Procedure) (ts : List Token) : Prop :=
  ∀ value rest, p.read ts = .ok (value, rest) → ∃ w, ts = w ++ rest ∧ p.Describes w value

def SoundBelow (n : Nat) : Prop :=
  ∀ p ts, cost p ts < n → SoundAt p ts

theorem readParams_sound {ts rest : List Token} {names : List String} (h : readParams ts = .ok (names, rest)) :
    ∃ w, ts = w ++ rest ∧ Params w names := by
  induction hn : ts.length using Nat.strongRecOn generalizing ts names
  case ind n hi =>
    subst hn
    rw [readParams_eq] at h
    rcases ts with _ | ⟨t, _ | ⟨u, us⟩⟩ <;> dsimp only at h
    case nil => cases h
    all_goals split at h
    case isTrue | isTrue =>
      cases h
      exact ⟨[], rfl, .none⟩
    all_goals split at h
    case isTrue | isFalse | isFalse => cases h
    case isTrue ht =>
      split at h
      case isFalse =>
        cases h
        exact ⟨[t], rfl, .some (.one ht)⟩
      case isTrue hu =>
        obtain ⟨⟨others, rest₁⟩, h₁, k₁⟩ := bind_eq_ok.mp h
        cases k₁
        obtain ⟨w, rfl, hw⟩ := hi us.length (by simp only [List.length_cons]; omega) h₁ rfl
        refine ⟨t :: u :: w, rfl, ?_⟩
        cases hw
        case none => exact .comma (.one ht) hu
        case some hw => exact .some (.more ht hu hw)
        case comma hc hw => exact .comma (.more ht hu hw) hc

theorem statement_sound {ts : List Token} (ih : SoundBelow (cost statement ts)) : SoundAt statement ts := by
  intro n rest h
  rw [read_statement] at h
  cases ts
  case nil => cases h
  case cons t us =>
    dsimp only at h
    split at h
    case h_1 hk =>
      obtain ⟨w, hw, hd⟩ := ih (letStatement t) us (by simp [cost, rank]) _ _ h
      exact ⟨t :: w, by simp [hw], hd hk⟩
    case h_2 hk =>
      obtain ⟨w, hw, hd⟩ := ih (returnStatement t) us (by simp [cost, rank]) _ _ h
      exact ⟨t :: w, by simp [hw], hd hk⟩
    case h_3 hk =>
      obtain ⟨w, hw, hd⟩ := ih (function t) us (by simp [cost, rank]) _ _ h
      exact ⟨t :: w, by simp [hw], hd hk⟩
    case h_4 =>
      obtain ⟨w, hw, hd⟩ := ih expr (t :: us) (by simp [cost, rank]) _ _ h
      exact ⟨w, hw, .exprStmt hd⟩

theorem letStatement_sound {keyword : Token} {ts : List Token} (ih : SoundBelow (cost (letStatement keyword) ts)) :
    SoundAt (letStatement keyword) ts := by
  intro n rest h
  rw [read_letStatement] at h
  obtain ⟨⟨name, rest₁⟩, h₁, k₁⟩ := bind_eq_ok.mp h
  obtain ⟨rfl, hname⟩ := take_ok h₁
  cases rest₁
  case nil => cases k₁
  case cons sign rest₂ =>
    dsimp only at k₁
    split at k₁
    case isTrue hs =>
      obtain ⟨⟨value, rest₃⟩, h₂, k₂⟩ := bind_eq_ok.mp k₁
      obtain ⟨w, hw, hd⟩ := ih expr rest₂ (by simp only [cost, rank, List.length_cons]; omega) _ _ h₂
      cases k₂
      exact ⟨name :: sign :: w, by simp [hw], fun hk => .letStmt hk hname (by simpa using hs) hd⟩
    case isFalse => cases k₁

theorem returnStatement_sound {keyword : Token} {ts : List Token}
    (ih : SoundBelow (cost (returnStatement keyword) ts)) : SoundAt (returnStatement keyword) ts := by
  intro n rest h
  rw [read_returnStatement] at h
  cases ts
  case nil => cases h
  case cons t us =>
    dsimp only at h
    split at h
    case isTrue =>
      cases h
      exact ⟨[], rfl, .bareReturn⟩
    case isFalse =>
      obtain ⟨⟨value, rest₁⟩, h₁, k₁⟩ := bind_eq_ok.mp h
      obtain ⟨w, hw, hd⟩ := ih expr (t :: us) (by simp [cost, rank]) _ _ h₁
      cases k₁
      exact ⟨w, hw, fun hk => .returnStmt hk hd⟩

theorem function_sound {keyword : Token} {ts : List Token} (ih : SoundBelow (cost (function keyword) ts)) :
    SoundAt (function keyword) ts := by
  intro n rest h
  rw [read_function] at h
  obtain ⟨⟨name, rest₁⟩, h₁, k₁⟩ := bind_eq_ok.mp h
  obtain ⟨rfl, hname⟩ := take_ok h₁
  obtain ⟨⟨opener, rest₂⟩, h₂, k₂⟩ := bind_eq_ok.mp k₁
  obtain ⟨rfl, hopener⟩ := take_ok h₂
  obtain ⟨⟨names, rest₃⟩, h₃, k₃⟩ := bind_eq_ok.mp k₂
  obtain ⟨ps, rfl, hps⟩ := readParams_sound h₃
  obtain ⟨⟨closer, rest₄⟩, h₄, k₄⟩ := bind_eq_ok.mp k₃
  obtain ⟨rfl, hcloser⟩ := take_ok h₄
  obtain ⟨⟨body, rest₅⟩, h₅, k₅⟩ := bind_eq_ok.mp k₄
  obtain ⟨w, hw, hd⟩ := ih block rest₄ (by simp only [cost, rank, List.length_cons, List.length_append]; omega) _ _ h₅
  cases k₅
  refine ⟨name :: opener :: ps ++ closer :: w, by simp [hw], fun hk => ?_⟩
  exact .function hk hname hopener hps hcloser hd

theorem block_sound {ts : List Token} (ih : SoundBelow (cost block ts)) : SoundAt block ts := by
  intro n rest h
  rw [read_block] at h
  obtain ⟨⟨opener, rest₁⟩, h₁, k₁⟩ := bind_eq_ok.mp h
  obtain ⟨rfl, hopener⟩ := take_ok h₁
  obtain ⟨⟨ns, rest₂⟩, h₂, k₂⟩ := bind_eq_ok.mp k₁
  obtain ⟨w, hw, hd⟩ := ih (statements .closeBrace) rest₁ (by simp only [cost, rank, List.length_cons]; omega) _ _ h₂
  obtain ⟨⟨closer, rest₃⟩, h₃, k₃⟩ := bind_eq_ok.mp k₂
  obtain ⟨rfl, hcloser⟩ := take_ok h₃
  cases k₃
  exact ⟨opener :: w ++ [closer], by simp [hw], .block hopener hd hcloser⟩

theorem unary_sound {ts : List Token} (ih : SoundBelow (cost unary ts)) : SoundAt unary ts := by
  intro n rest h
  rw [read_unary] at h
  cases ts
  case nil => cases h
  case cons t us =>
    dsimp only at h
    split at h
    case isTrue ht =>
      obtain ⟨⟨operand, rest₁⟩, h₁, k₁⟩ := bind_eq_ok.mp h
      obtain ⟨w, hw, hd⟩ := ih unary us (by simp [cost, rank]) _ _ h₁
      cases k₁
      exact ⟨t :: w, by simp [hw], .unary (by simpa using ht) hd⟩
    case isFalse =>
      obtain ⟨w, hw, hd⟩ := ih call (t :: us) (by simp [cost, rank]) _ _ h
      exact ⟨w, hw, .operand hd⟩

theorem call_sound {ts : List Token} (ih : SoundBelow (cost call ts)) : SoundAt call ts := by
  intro n rest h
  rw [read_call] at h
  obtain ⟨⟨callee, rest₁⟩, h₁, k₁⟩ := bind_eq_ok.mp h
  have hl := length_lt_of_read h₁
  obtain ⟨w, hw, hd⟩ := ih primary ts (by simp [cost, rank]) _ _ h₁
  obtain ⟨w', hw', hd'⟩ := ih (callRest callee) rest₁ (by simp [cost, rank, slack] at *; omega) _ _ k₁
  exact ⟨w ++ w', by simp [hw, hw'], hd' w (.callee hd)⟩

theorem callRest_sound {callee : Node} {ts : List Token} (ih : SoundBelow (cost (callRest callee) ts)) :
    SoundAt (callRest callee) ts := by
  intro n rest h
  rw [read_callRest] at h
  cases ts
  case nil => cases h
  case cons t us =>
    dsimp only at h
    split at h
    case isTrue ht =>
      obtain ⟨⟨args, rest₁⟩, h₁, k₁⟩ := bind_eq_ok.mp h
      have hl := length_lt_of_read h₁
      obtain ⟨w, hw, hd⟩ := ih (exprList .closeParen) us (by simp only [cost, rank, List.length_cons]; omega) _ _ h₁
      obtain ⟨⟨closer, rest₂⟩, h₂, k₂⟩ := bind_eq_ok.mp k₁
      obtain ⟨rfl, hcloser⟩ := take_ok h₂
      obtain ⟨w', hw', hd'⟩ := ih (callRest _) rest₂ (by simp [cost, rank, slack] at *; omega) _ _ k₂
      refine ⟨t :: w ++ closer :: w', by simp [hw, hw'], fun w₀ h₀ => ?_⟩
      have := hd' _ (.call h₀ ht hd hcloser)
      simpa using this
    case isFalse =>
      cases h
      exact ⟨[], rfl, fun w₀ h₀ => by simpa using h₀⟩

theorem binary_sound {levels : List (List Token.Kind)} {ts : List Token} (ih : SoundBelow (cost (binary levels) ts)) :
    SoundAt (binary levels) ts := by
  intro n rest h
  cases levels
  case nil =>
    rw [read_binary_nil] at h
    obtain ⟨w, hw, hd⟩ := ih unary ts (by simp [cost, rank]) _ _ h
    exact ⟨w, hw, .untiered hd⟩
  case cons ops tighter =>
    rw [read_binary_cons] at h
    obtain ⟨⟨left, rest₁⟩, h₁, k₁⟩ := bind_eq_ok.mp h
    have hl := length_lt_of_read h₁
    obtain ⟨w, hw, hd⟩ := ih (binary tighter) ts (by simp [cost, rank]) _ _ h₁
    obtain ⟨w', hw', hd'⟩ := ih (binaryRest ops tighter left) rest₁ (by simp [cost, rank, slack] at *; omega) _ _ k₁
    exact ⟨w ++ w', by simp [hw, hw'], hd' w (.tighter hd)⟩

theorem binaryRest_sound {ops : List Token.Kind} {tighter : List (List Token.Kind)} {left : Node} {ts : List Token}
    (ih : SoundBelow (cost (binaryRest ops tighter left) ts)) : SoundAt (binaryRest ops tighter left) ts := by
  intro n rest h
  rw [read_binaryRest] at h
  cases ts
  case nil => cases h
  case cons t us =>
    dsimp only at h
    split at h
    case isTrue ht =>
      obtain ⟨⟨right, rest₁⟩, h₁, k₁⟩ := bind_eq_ok.mp h
      have hl := length_lt_of_read h₁
      obtain ⟨w, hw, hd⟩ := ih (binary tighter) us (by simp [cost, rank]) _ _ h₁
      obtain ⟨w', hw', hd'⟩ := ih (binaryRest ops tighter _) rest₁ (by simp [cost, rank, slack] at *; omega) _ _ k₁
      refine ⟨t :: w ++ w', by simp [hw, hw'], fun w₀ h₀ => ?_⟩
      have := hd' _ (.binary h₀ (by simpa using ht) hd)
      simpa using this
    case isFalse =>
      cases h
      exact ⟨[], rfl, fun w₀ h₀ => by simpa using h₀⟩

theorem expr_sound {ts : List Token} (ih : SoundBelow (cost expr ts)) : SoundAt expr ts := by
  intro n rest h
  rw [read_expr] at h
  obtain ⟨⟨left, rest₁⟩, h₁, k₁⟩ := bind_eq_ok.mp h
  have hl := length_lt_of_read h₁
  obtain ⟨w, rfl, hd⟩ := ih (binary tiers) ts (by simp [cost, rank, tiers_length]) _ _ h₁
  cases rest₁
  case nil => cases k₁
  case cons t rest₂ =>
    dsimp only at k₁
    split at k₁
    case isFalse =>
      cases k₁
      exact ⟨w, rfl, .tiers hd⟩
    case isTrue ht =>
      cases left <;> try cases k₁
      case ident s x =>
        obtain ⟨⟨value, rest₃⟩, h₂, k₂⟩ := bind_eq_ok.mp k₁
        obtain ⟨w', hw', hd'⟩ := ih expr rest₂ (by simp only [cost, rank, List.length_cons, List.length_append]; omega) _ _ h₂
        cases k₂
        exact ⟨w ++ t :: w', by simp [hw'], .assign hd.target_of_ident ht hd'⟩

theorem primary_sound {ts : List Token} (ih : SoundBelow (cost primary ts)) : SoundAt primary ts := by
  intro n rest h
  rw [read_primary] at h
  cases ts
  case nil => cases h
  case cons t us =>
    dsimp only at h
    split at h
    case h_1 kind hk =>
      cases h
      exact ⟨[t], rfl, .literal hk⟩
    case h_2 =>
      split at h
      case h_1 hk =>
        cases h
        exact ⟨[t], rfl, .nop hk⟩
      case h_2 hk =>
        cases h
        exact ⟨[t], rfl, .ident hk⟩
      case h_3 hk =>
        obtain ⟨⟨inner, rest₁⟩, h₁, k₁⟩ := bind_eq_ok.mp h
        obtain ⟨w, hw, hd⟩ := ih expr us (by simp only [cost, rank, List.length_cons]; omega) _ _ h₁
        obtain ⟨⟨closer, rest₂⟩, h₂, k₂⟩ := bind_eq_ok.mp k₁
        obtain ⟨rfl, hcloser⟩ := take_ok h₂
        cases k₂
        exact ⟨t :: w ++ [closer], by simp [hw], .grouped hk hd hcloser⟩
      case h_4 hk =>
        obtain ⟨⟨items, rest₁⟩, h₁, k₁⟩ := bind_eq_ok.mp h
        obtain ⟨w, hw, hd⟩ := ih (exprList .closeBracket) us (by simp only [cost, rank, List.length_cons]; omega) _ _ h₁
        obtain ⟨⟨closer, rest₂⟩, h₂, k₂⟩ := bind_eq_ok.mp k₁
        obtain ⟨rfl, hcloser⟩ := take_ok h₂
        cases k₂
        exact ⟨t :: w ++ [closer], by simp [hw], .list hk hd hcloser⟩
      case h_5 hk =>
        obtain ⟨w, hw, hd⟩ := ih block (t :: us) (by simp [cost, rank]) _ _ h
        exact ⟨w, hw, .blockExpr hd⟩
      case h_6 hk =>
        obtain ⟨w, hw, hd⟩ := ih (conditional t) us (by simp only [cost, rank, List.length_cons]; omega) _ _ h
        exact ⟨t :: w, by simp [hw], .ifExpr (hd hk)⟩
      case h_7 => cases h

theorem conditional_sound {keyword : Token} {ts : List Token} (ih : SoundBelow (cost (conditional keyword) ts)) :
    SoundAt (conditional keyword) ts := by
  intro n rest h
  rw [read_conditional] at h
  obtain ⟨⟨condition, rest₁⟩, h₁, k₁⟩ := bind_eq_ok.mp h
  have hl₁ := length_lt_of_read h₁
  obtain ⟨w, rfl, hd⟩ := ih expr ts (by simp [cost, rank]) _ _ h₁
  obtain ⟨⟨thenBlock, rest₂⟩, h₂, k₂⟩ := bind_eq_ok.mp k₁
  have hl₂ := length_lt_of_read h₂
  obtain ⟨w', rfl, hd'⟩ := ih block rest₁ (by simp [cost, rank, slack] at *; omega) _ _ h₂
  cases rest₂
  case nil => cases k₂
  case cons t rest₃ =>
    dsimp only at k₂
    split at k₂
    case isTrue ht =>
      obtain ⟨⟨elseBranch, rest₄⟩, h₃, k₃⟩ := bind_eq_ok.mp k₂
      obtain ⟨w'', hw'', hd''⟩ := ih otherwise rest₃ (by simp only [cost, rank, List.length_cons, List.length_append]; omega) _ _ h₃
      cases k₃
      refine ⟨w ++ w' ++ t :: w'', by simp [hw''], fun hk => ?_⟩
      exact .ifThenElse hk hd hd' ht hd''
    case isFalse =>
      cases k₂
      exact ⟨w ++ w', by simp, fun hk => .ifThen hk hd hd'⟩

theorem otherwise_sound {ts : List Token} (ih : SoundBelow (cost otherwise ts)) : SoundAt otherwise ts := by
  intro n rest h
  rw [read_otherwise] at h
  cases ts
  case nil => cases h
  case cons t us =>
    dsimp only at h
    split at h
    case isTrue hk =>
      obtain ⟨w, hw, hd⟩ := ih (conditional t) us (by simp only [cost, rank, List.length_cons]; omega) _ _ h
      exact ⟨t :: w, by simp [hw], .elseIf (hd hk)⟩
    case isFalse =>
      obtain ⟨w, hw, hd⟩ := ih block (t :: us) (by simp [cost, rank]) _ _ h
      exact ⟨w, hw, .elseBlock hd⟩

theorem exists_separators (ts : List Token) :
    ∃ seps, Separators seps ∧ ts = seps ++ ts.dropWhile (·.kind.isSeparator) :=
  ⟨ts.takeWhile (·.kind.isSeparator), List.all_eq_true.mp List.all_takeWhile, by simp⟩

theorem exists_newlines (ts : List Token) :
    ∃ lines, Newlines lines ∧ ts = lines ++ ts.dropWhile (·.kind = .newline) :=
  ⟨ts.takeWhile (·.kind = .newline), fun _ ht => by simpa using List.all_eq_true.mp List.all_takeWhile _ ht, by simp⟩

-- One more statement in front of a body that begins with a separator, and so needs no other between the two.
theorem body_cons {before w w' : List Token} {n : Node} {ns : List Node} (hb : Separators before)
    (h : Derives .statement w n) (hw : ∀ u ∈ w'.head?, u.kind.isSeparator) (h' : Derives .body w' ns) :
    Derives .body (before ++ w ++ w') (n :: ns) := by
  cases h' with
  | empty hs => exact .body hb (.one h) hs
  | @body seps _ _ _ hs h' ha =>
    have hne : seps ≠ [] := by
      rintro rfl
      obtain ⟨t, us, rfl, ht⟩ := h'.opens
      simp [Token.Kind.not_isSeparator_of_opensStatement ht] at hw
    have := Derives.body hb (.more h hs hne h') ha
    simpa using this

theorem statements_sound {closer : Token.Kind} {ts : List Token} (ih : SoundBelow (cost (statements closer) ts)) :
    SoundAt (statements closer) ts := by
  intro ns rest h
  rw [read_statements] at h
  obtain ⟨seps, hs, hts⟩ := exists_separators ts
  generalize ts.dropWhile _ = us at h hts
  subst hts
  cases us
  case nil => cases h
  case cons t us =>
    dsimp only at h
    split at h
    case isTrue =>
      cases h
      exact ⟨seps, rfl, .empty hs⟩
    case isFalse =>
      split at h
      case isTrue => cases h
      case isFalse =>
        obtain ⟨⟨first, behind⟩, h₁, k₁⟩ := bind_eq_ok.mp h
        have hl := length_lt_of_read h₁
        obtain ⟨w, hw, hd⟩ := ih statement (t :: us) (by simp only [cost, rank, List.length_cons, List.length_append]; omega) _ _ h₁
        rw [hw]
        cases behind
        case nil => cases k₁
        case cons u behind =>
          dsimp only at k₁
          split at k₁
          case isTrue =>
            cases k₁
            refine ⟨seps ++ w, by simp, ?_⟩
            exact List.append_nil (seps ++ w) ▸ .body hs (.one hd) (List.forall_mem_nil _)
          case isFalse =>
            split at k₁
            case isFalse => cases k₁
            case isTrue hu =>
              obtain ⟨⟨others, rest₁⟩, h₂, k₂⟩ := bind_eq_ok.mp k₁
              obtain ⟨w', hw', hd'⟩ :=
                ih (statements closer) (u :: behind) (by simp [cost, rank, slack] at *; omega) _ _ h₂
              cases k₂
              refine ⟨seps ++ w ++ w', by simp [hw'], ?_⟩
              refine body_cons hs hd (fun v hv => ?_) hd'
              cases w' <;> cases hv
              cases hw'
              exact hu

-- One more item, and a comma, in front of a list of expressions.
theorem exprList_cons {comma : Token} {lines w lines' w' : List Token} {n : Node} {ns : List Node} (hl : Newlines lines)
    (h : Derives .expr w n) (hl' : Newlines lines') (hc : comma.kind = .comma) (h' : Derives .exprList w' ns) :
    Derives .exprList (lines ++ (w ++ lines') ++ comma :: w') (n :: ns) := by
  cases h' with
  | noItems hw => exact .itemsComma hl (.item h hl') hc hw
  | items hw h' =>
    have := Derives.items hl (.moreItems h hl' hc hw h')
    simpa using this
  | itemsComma hw h' hc' hw' =>
    have := Derives.itemsComma hl (.moreItems h hl' hc hw h') hc' hw'
    simpa using this

theorem exprList_sound {closer : Token.Kind} {ts : List Token} (ih : SoundBelow (cost (exprList closer) ts)) :
    SoundAt (exprList closer) ts := by
  intro ns rest h
  rw [read_exprList] at h
  obtain ⟨lines, hl, hts⟩ := exists_newlines ts
  generalize ts.dropWhile _ = us at h hts
  subst hts
  cases us
  case nil => cases h
  case cons t us =>
    dsimp only at h
    split at h
    case isTrue =>
      cases h
      exact ⟨lines, rfl, .noItems hl⟩
    case isFalse =>
      obtain ⟨⟨item, behind⟩, h₁, k₁⟩ := bind_eq_ok.mp h
      have hlen := length_lt_of_read h₁
      obtain ⟨w, hw, hd⟩ := ih expr (t :: us) (by simp only [cost, rank, List.length_cons, List.length_append]; omega) _ _ h₁
      obtain ⟨lines₂, hl₂, hb⟩ := exists_newlines behind
      dsimp only at k₁
      generalize behind.dropWhile _ = vs at k₁ hb
      subst hb
      rw [hw]
      cases vs
      case nil => cases k₁
      case cons u vs =>
        dsimp only at k₁
        split at k₁
        case isFalse =>
          cases k₁
          exact ⟨lines ++ (w ++ lines₂), by simp, .items hl (.item hd hl₂)⟩
        case isTrue hu =>
          obtain ⟨⟨others, rest₁⟩, h₂, k₂⟩ := bind_eq_ok.mp k₁
          obtain ⟨w', rfl, hd'⟩ := ih (exprList closer) vs (by simp [cost, rank, slack] at *; omega) _ _ h₂
          cases k₂
          refine ⟨lines ++ (w ++ lines₂) ++ u :: w', by simp, ?_⟩
          exact exprList_cons hl hd hl₂ hu hd'

theorem sound (p : Procedure) (ts : List Token) : SoundAt p ts := by
  refine induct (fun p ts ih => ?_) p ts
  cases p
  case statements => exact statements_sound ih
  case statement => exact statement_sound ih
  case letStatement => exact letStatement_sound ih
  case returnStatement => exact returnStatement_sound ih
  case function => exact function_sound ih
  case block => exact block_sound ih
  case expr => exact expr_sound ih
  case binary => exact binary_sound ih
  case binaryRest => exact binaryRest_sound ih
  case unary => exact unary_sound ih
  case call => exact call_sound ih
  case callRest => exact callRest_sound ih
  case primary => exact primary_sound ih
  case conditional => exact conditional_sound ih
  case otherwise => exact otherwise_sound ih
  case exprList => exact exprList_sound ih

end Procedure
end ParenTree.Parser
