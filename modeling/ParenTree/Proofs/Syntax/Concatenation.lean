import ParenTree.Proofs.Source.Scanning
import ParenTree.Proofs.Syntax.Placement
import ParenTree.Proofs.Syntax.WellFormed

-- Texts with a newline between them are read one after the other: the statements of the second text follow those of the
-- first, and are where they would be alone but for the lines and characters in front of them.

namespace ParenTree

-- Moved down by a number of lines, and by the characters of those lines.
def Position.shift (lines chars : Nat) (p : Position) : Position :=
  ⟨p.line + lines, p.col, p.offset + chars⟩

def Span.shift (lines chars : Nat) (s : Span) : Span :=
  { s with line := s.line + lines, start := s.start + chars, stop := s.stop + chars }

def Token.shift (lines chars : Nat) (t : Token) : Token :=
  { t with span := t.span.shift lines chars }

def SourceFault.shift (lines chars : Nat) : SourceFault → SourceFault
  | lexical span cause => lexical (span.shift lines chars) cause
  | syntactic span cause => syntactic (span.shift lines chars) cause

section

variable (lines chars : Nat)

theorem SourceFault.diagnostic_shift (fault : SourceFault) :
    (fault.shift lines chars).diagnostic.message = fault.diagnostic.message ∧
    (fault.shift lines chars).diagnostic.hint = fault.diagnostic.hint ∧
    (fault.shift lines chars).diagnostic.code = fault.diagnostic.code ∧
    (fault.shift lines chars).diagnostic.span = fault.diagnostic.span.shift lines chars := by
  cases fault <;> exact ⟨rfl, rfl, rfl, rfl⟩

theorem Position.after_shift (p : Position) (c : Char) : (p.shift lines chars).after c = (p.after c).shift lines chars := by
  simp only [after, shift]
  split <;> simp only [Nat.add_right_comm]

theorem Position.afterAll_shift (p : Position) (cs : List Char) :
    (p.shift lines chars).afterAll cs = (p.afterAll cs).shift lines chars := by
  induction cs generalizing p
  case nil => rfl
  case cons c cs hi => rw [afterAll_cons, after_shift, hi, afterAll_cons]

theorem Span.between_shift (file : String) (p q : Position) :
    between file (p.shift lines chars) (q.shift lines chars) = (between file p q).shift lines chars := by
  simp [between, shift, Position.shift]

-- The text behind a newline begins a line, below all lines in front.
theorem Position.after_newline (cs : List Char) :
    (afterAll {} cs).after '\n' = shift (1 + cs.count '\n') (cs.length + 1) {} := by
  simp only [after, if_true, shift, afterAll_line, afterAll_offset, mk.injEq, true_and]
  omega

end

namespace Token

-- A text that stands further down has its tokens, and its fault, further down.
theorem scan_shift (lines chars : Nat) (file : String) (p : Position) (found : List Token) (cs : List Char) :
    scan file (p.shift lines chars) (found.map (shift lines chars)) cs =
      match scan file p found cs with
      | .ok ts => .ok (ts.map (shift lines chars))
      | .error fault => .error (fault.shift lines chars) := by
  fun_induction scan file p found cs
  case case1 => simp [scan, shift, Span.between_shift]
  case case2 hf =>
    simp only [scan, hf, SourceFault.shift, ← Span.between_shift]
    simp [Position.shift, Nat.add_right_comm]
  case case3 hf hi => rw [scan_layout hf, Position.afterAll_shift, hi]
  case case4 hf hi =>
    rw [scan_token hf, Position.afterAll_shift, ← hi, Span.between_shift]
    rfl

theorem ofSource_append_newline {file first : String} {ts : List Token} (h : ofSource file first = .ok ts)
    (second : String) :
    ∃ w eof sep, ts = w ++ [eof] ∧ sep.kind = .newline ∧ ofSource file (first ++ "\n" ++ second) =
      match ofSource file second with
      | .ok us => .ok (w ++ sep :: us.map (shift (1 + first.toList.count '\n') (first.length + 1)))
      | .error fault => .error (fault.shift (1 + first.toList.count '\n') (first.length + 1)) := by
  obtain ⟨w, hw, hr⟩ := scan_newline h
  let sep : Token := ⟨.newline, .ofList ['\n'], .between file (Position.afterAll {} first.toList)
    ((Position.afterAll {} first.toList).after '\n')⟩
  refine ⟨w, _, sep, hw, rfl, ?_⟩
  have hn : Lexeme.first '\n' second.toList = .ok (.token .newline, 0) := rfl
  calc ofSource file (first ++ "\n" ++ second)
    _ = scan file {} [] (first.toList ++ '\n' :: second.toList) := by simp [ofSource]
    _ = scan file ((Position.afterAll {} first.toList).after '\n') (sep :: w.reverse) second.toList := by
      rw [hr, scan_token hn]
      rfl
    _ = (scan file ((Position.afterAll {} first.toList).after '\n') [] second.toList).map (w ++ sep :: ·) := by
      rw [← List.nil_append (sep :: w.reverse), scan_append_found]
      simp
    _ = _ := by
      rw [Position.after_newline, String.length_toList, ← List.map_nil, scan_shift, ofSource]
      cases scan file {} [] second.toList <;> rfl

end Token

namespace Grammar

open ParenTree.Parser ParenTree.Parser.Procedure

theorem read_statements_separators {closer : Token.Kind} {seps ts : List Token} (hs : Separators seps) :
    read (statements closer) (seps ++ ts) = read (statements closer) ts := by
  rw [read_statements, dropWhile_separators hs, ← read_statements]

-- A sequence with separators behind it is read before what follows them.
def Category.Leads : (c : Category) → List Token → c.Tree → Prop
  | sequence, w, ns => ∀ (closer : Token) (seps ts : List Token), closer.kind.closesBody → Separators seps → seps ≠ [] →
    read (statements closer.kind) (w ++ (seps ++ ts)) =
      (read (statements closer.kind) ts).map fun result => (ns ++ result.1, result.2)
  | _, _, _ => True

theorem read_statements_of_separated {closer : Token} {w seps ts : List Token} {n : Node} (hd : Derives .statement w n)
    (hc : closer.kind.closesBody) (hs : Separators seps) (hne : seps ≠ []) :
    read (statements closer.kind) (w ++ (seps ++ ts)) =
      (read (statements closer.kind) ts).map fun result => (n :: result.1, result.2) := by
  cases seps
  case nil => contradiction
  case cons s seps =>
    have hsep := hs s (by simp)
    have hsc := Token.Kind.ne_of_isSeparator hsep hc
    rw [List.cons_append, read_statements_of_statement hd hd.reads hc (by simp [Token.Kind.endsStatement, hsep])]
    simp only [hsc, if_false, hsep, if_true]
    rw [← List.cons_append, read_statements_separators hs]
    rfl

theorem Derives.leads {c : Category} {w : List Token} {tree : c.Tree} (h : Derives c w tree) : c.Leads w tree := by
  induction h
  case one hd _ =>
    intro closer seps ts hc hs hne
    exact read_statements_of_separated hd hc hs hne
  case more hd hs hne _ _ hi =>
    intro closer seps' ts hc hs' hne'
    rw [List.append_assoc, List.append_assoc, read_statements_of_separated hd hc hs hne, hi closer seps' ts hc hs' hne']
    cases read (statements closer.kind) ts <;> rfl
  all_goals trivial

theorem Derives.read_body {sep : Token} {w : List Token} {ns : List Node} (h : Derives .body w ns) (closer : Token)
    (hc : closer.kind.closesBody) (hsep : sep.kind.isSeparator) (ts : List Token) :
    read (statements closer.kind) (w ++ sep :: ts) =
      (read (statements closer.kind) ts).map fun result => (ns ++ result.1, result.2) := by
  have separators_concat {seps : List Token} (hs : Separators seps) : Separators (seps ++ [sep]) := by
    intro t ht
    rcases List.mem_append.mp ht with ht | ht
    case inl => exact hs t ht
    case inr => rw [List.mem_singleton.mp ht, hsep]
  cases h
  case empty hs =>
    rw [List.append_cons, read_statements_separators (separators_concat hs)]
    cases read (statements closer.kind) ts <;> rfl
  case body hb ha hd =>
    rw [List.append_assoc, List.append_assoc, read_statements_separators hb, List.append_cons]
    exact hd.leads closer _ ts hc (separators_concat ha) (by simp)

end Grammar

namespace Node

mutual

theorem map_id (n : Node) : n.map id (fun _ value => value) = n := by
  cases n <;> simp [map, map_id, mapAll_id]

theorem mapAll_id (ns : List Node) : mapAll id (fun _ value => value) ns = ns := by
  cases ns <;> simp [mapAll, map_id, mapAll_id]

end

end Node

namespace Program

open ParenTree.Parser ParenTree.Parser.Procedure Grammar

theorem ofTokens_append {w : List Token} {sep : Token} {ns : List Node} (h : Derives .body w ns)
    (hsep : sep.kind.isSeparator) (ts : List Token) :
    match ofTokens ts with
    | .ok p => ∃ span, ofTokens (w ++ sep :: ts) = .ok ⟨span, ns ++ p.body⟩
    | .error failure => ofTokens (w ++ sep :: ts) = .error failure := by
  have hr := h.read_body ⟨.endOfInput, "", .blank⟩ rfl hsep ts
  rw [ofTokens_eq ts, ofTokens_eq (w ++ sep :: ts), hr]
  rcases read (statements .endOfInput) ts with _ | ⟨others, _ | ⟨eof, rest⟩⟩
  case error | ok.nil => rfl
  case ok.cons => exact ⟨_, rfl⟩

theorem ofTokens_shift (lines chars : Nat) (ts : List Token) :
    match ofTokens ts with
    | .ok p => ∃ span, ofTokens (ts.map (Token.shift lines chars)) =
        .ok ⟨span, Node.mapAll (Span.shift lines chars) (fun _ value => value) p.body⟩
    | .error (.fault fault) => ofTokens (ts.map (Token.shift lines chars)) = .error (.fault (fault.shift lines chars))
    | .error .outOfTokens => ofTokens (ts.map (Token.shift lines chars)) = .error .outOfTokens := by
  have hR : Span.Congruent fun s s' => s' = s.shift lines chars := by
    rintro s _ t _ rfl rfl
    rfl
  have hts : List.Forall₂ (Token.Alike fun s s' => s' = s.shift lines chars) ts (ts.map (Token.shift lines chars)) :=
    List.forall₂_map_right_iff.mpr (List.forall₂_same.mpr fun t _ => ⟨rfl, rfl, rfl⟩)
  have hagree := ofTokens_agree hR hts
  cases hp : ofTokens ts <;> rw [hp] at hagree
  case ok p =>
    generalize ofTokens (ts.map _) = result at hagree
    cases hagree
    case programs p' ha =>
      refine ⟨p'.span, ?_⟩
      have hb := ha.2.map_eq (f := Span.shift lines chars) (g := id) (fun _ _ hs => hs.symm) (fun _ value => value)
      rw [hb, Node.mapAll_id]
  case error failure =>
    generalize ofTokens (ts.map _) = result at hagree
    cases hagree
    case faults hs => rw [hs]; rfl
    case outOfTokens => rfl

theorem body_of_ofSource {file source : String} {p : Program} (h : ofSource file source = .ok p) :
    ∃ w eof, Token.ofSource file source = .ok (w ++ [eof]) ∧ Derives .body w p.body := by
  rw [ofSource] at h
  cases ht : Token.ofSource file source <;> rw [ht] at h
  case error => cases h
  case ok ts =>
    cases spells_of_ofTokens (terminated_of_ofSource ht) h
    case program hd _ => exact ⟨_, _, rfl, hd⟩

-- The second text is read as if it were alone, and its places are counted from where it begins.
theorem ofSource_append {file first second : String} {p : Program} (hp : ofSource file first = .ok p) :
    (∀ q, ofSource file second = .ok q →
      ∃ r, ofSource file (first ++ "\n" ++ second) = .ok r ∧ r.body = p.body ++
        Node.mapAll (Span.shift (1 + first.toList.count '\n') (first.length + 1)) (fun _ value => value) q.body) ∧
    ∀ fault, ofSource file second = .error (.fault fault) →
      ∃ fault', ofSource file (first ++ "\n" ++ second) = .error (.fault fault') ∧
        fault'.diagnostic.message = fault.diagnostic.message ∧ fault'.diagnostic.hint = fault.diagnostic.hint ∧
        fault'.diagnostic.code = fault.diagnostic.code ∧ fault'.diagnostic.span =
          fault.diagnostic.span.shift (1 + first.toList.count '\n') (first.length + 1) := by
  obtain ⟨w, eof, ht, hd⟩ := body_of_ofSource hp
  obtain ⟨w', eof', sep, he, hsep, hs⟩ := Token.ofSource_append_newline ht second
  obtain ⟨rfl, -⟩ := List.append_inj' he rfl
  generalize 1 + first.toList.count '\n' = lines at hs ⊢
  generalize first.length + 1 = chars at hs ⊢
  rw [ofSource, ofSource, hs]
  cases Token.ofSource file second
  case error fault' =>
    refine ⟨?_, ?_⟩ <;> rintro _ ⟨⟩
    exact ⟨_, rfl, fault'.diagnostic_shift lines chars⟩
  case ok us =>
    have hshift := ofTokens_shift lines chars us
    have hsep : sep.kind.isSeparator := by rw [hsep]; rfl
    have happend := ofTokens_append hd hsep (us.map (Token.shift lines chars))
    dsimp only
    rcases hu : ofTokens us with (fault' | -) | q <;> rw [hu] at hshift <;> dsimp only at hshift
    case ok =>
      obtain ⟨span, hq⟩ := hshift
      rw [hq] at happend
      obtain ⟨span', hr⟩ := happend
      refine ⟨?_, ?_⟩ <;> rintro _ ⟨⟩
      exact ⟨_, hr, rfl⟩
    case error.fault =>
      rw [hshift] at happend
      refine ⟨?_, ?_⟩ <;> rintro _ ⟨⟩
      exact ⟨_, happend, fault'.diagnostic_shift lines chars⟩
    case error.outOfTokens => refine ⟨?_, ?_⟩ <;> rintro _ ⟨⟩

-- A comment up to the end of a text ends at the newline, and so does a return without a value.
theorem ofSource_append_comment :
    (∃ p q r, ofSource "" "return // 1" = .ok p ∧ ofSource "" "x" = .ok q ∧ ofSource "" "return // 1\nx" = .ok r ∧
      r.body = p.body ++ Node.mapAll (Span.shift 1 12) (fun _ value => value) q.body) ∧
    ∃ fault, ofSource "" "return // 1\n[x" = .error (.fault fault) ∧ fault.diagnostic.message = "expected ']'" ∧
      fault.diagnostic.span = ⟨"", 2, 3, 14, 14⟩ := by
  have hp : (ofSource "" "return // 1").toBool := by decide +kernel
  have hq : (ofSource "" "x").toBool := by decide +kernel
  have hf : (match ofSource "" "[x" with | .error failure => some failure | .ok _ => none) =
      some (.fault (.syntactic ⟨"", 1, 3, 2, 2⟩ (.expected .closeBracket))) := by decide +kernel
  cases hp' : ofSource "" "return // 1" <;> rw [hp'] at hp
  case error => cases hp
  case ok p =>
    cases hq' : ofSource "" "x" <;> rw [hq'] at hq
    case error => cases hq
    case ok q =>
      cases hf' : ofSource "" "[x" <;> rw [hf'] at hf
      case ok => cases hf
      case error =>
        obtain rfl := Option.some.inj hf
        obtain ⟨r, hr, hb⟩ := (ofSource_append hp').left q hq'
        obtain ⟨fault, he, hm, -, -, hs⟩ := (ofSource_append hp').right _ hf'
        exact ⟨⟨p, q, r, rfl, rfl, hr, hb⟩, fault, he, hm, hs⟩

end Program

end ParenTree
