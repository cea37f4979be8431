import ParenTree.Proofs.Source.Scanning

-- A text is its tokens and what stands between them: blanks and comments, each of them whole.

namespace ParenTree

namespace Text

-- The characters of a text from one offset up to, but without, another.
def slice (cs : List Char) (start stop : Int) : List Char :=
  (cs.take stop.toNat).drop start.toNat

theorem slice_append (before middle after : List Char) {start stop : Int} (hs : start = before.length)
    (he : stop = (before ++ middle).length) : slice (before ++ (middle ++ after)) start stop = middle := by
  subst hs he
  rw [slice, Int.toNat_natCast, Int.toNat_natCast, ← List.append_assoc, List.take_left, List.drop_left]

end Text

namespace Lexeme

-- A piece of layout in front of a text, as long as it goes: a run of blanks, a comment up to the end of its line, or a comment
-- up to the first mark that closes it.
inductive IsLayout : List Char → List Char → Prop
  | blanks {cs rest} : cs ≠ [] → cs.all isSpace → (∀ d ∈ rest.head?, isSpace d = false) → IsLayout cs rest
  | lineComment {body rest} : '\n' ∉ body → (∀ d ∈ rest.head?, d = '\n') → IsLayout ('/' :: '/' :: body) rest
  | blockComment {body rest} : ¬['*', '/'] <:+: body → IsLayout ('/' :: '*' :: (body ++ ['*', '/'])) rest

-- What may stand in front of a text without being a token: pieces of layout, one after the other.
inductive Gap (rest : List Char) : List Char → Prop
  | nil : Gap rest []
  | cons {piece gap} : IsLayout piece (gap ++ rest) → Gap rest gap → Gap rest (piece ++ gap)

section

variable {cs : List Char} {length : Nat}

theorem drop_run (p : Char → Bool) (cs : List Char) : cs.drop (run p cs) = cs.dropWhile p := by
  have h : (cs.takeWhile p ++ cs.dropWhile p).drop (run p cs) = cs.dropWhile p := List.drop_left
  rwa [List.takeWhile_append_dropWhile] at h

theorem not_head?_dropWhile {p : Char → Bool} : ∀ d ∈ (cs.dropWhile p).head?, p d = false := by
  intro d hd
  have h := List.head?_dropWhile_not p cs
  rw [Option.mem_def.mp hd] at h
  simpa using h

theorem commentEnd_spells {seen : Nat} (h : commentEnd seen cs = some length) :
    ∃ body rest, cs = body ++ '*' :: '/' :: rest ∧ ¬['*', '/'] <:+: body ∧ length = seen + body.length + 2 := by
  fun_induction commentEnd seen cs
  case case1 => cases h
  case case2 seen rest =>
    cases h
    exact ⟨[], rest, rfl, by simp, rfl⟩
  case case3 seen c cs hp hi =>
    obtain ⟨body, rest, rfl, hb, hl⟩ := hi h
    refine ⟨c :: body, rest, rfl, ?_, by simp only [List.length_cons]; omega⟩
    rw [List.infix_cons_iff]
    rintro (hc | hc)
    case inl =>
      -- The mark would close the comment here, where it has not been found.
      obtain ⟨after, hc⟩ := hc
      cases hc
      exact hp _ rfl rfl
    case inr => exact hb hc

theorem slash_layout (h : slash cs = .ok (.layout, length)) : IsLayout ('/' :: cs.take length) (cs.drop length) := by
  revert h
  fun_cases slash cs <;> intro h
  case case1 rest =>
    cases h
    rw [Nat.add_comm, List.take_succ_cons, List.drop_succ_cons, take_run, drop_run]
    refine .lineComment (fun hn => ?_) fun d hd => by simpa using not_head?_dropWhile d hd
    simpa using List.mem_takeWhile_imp hn
  case case2 rest n he =>
    cases h
    obtain ⟨body, after, rfl, hb, rfl⟩ := commentEnd_spells he
    have ht : '*' :: (body ++ '*' :: '/' :: after) = '*' :: (body ++ ['*', '/']) ++ after := by simp
    have hl : 1 + body.length + 2 = ('*' :: (body ++ ['*', '/'])).length := by
      simp only [List.length_cons, List.length_append, List.length_nil]
      omega
    rw [ht, hl, List.take_left, List.drop_left]
    exact .blockComment hb
  case case3 => cases h
  case case4 =>
    simp only [operator] at h
    split at h <;> cases h

theorem first_layout {c : Char} (h : first c cs = .ok (.layout, length)) :
    IsLayout (c :: cs.take length) (cs.drop length) := by
  revert h
  fun_cases first c cs <;> intro h
  case case1 hc =>
    cases h
    rw [take_run, drop_run]
    refine .blanks (List.cons_ne_nil _ _) ?_ not_head?_dropWhile
    simp [hc]
  case case2 hc =>
    rw [hc]
    exact slash_layout h
  case case3 => cases h
  case case4 =>
    obtain ⟨k, n, hk⟩ := number_isToken cs
    rw [hk] at h
    cases h
  case case5 => cases h
  case case6 => cases h
  case case7 => cases h
  case case8 =>
    simp only [operator] at h
    split at h <;> cases h

end

end Lexeme

namespace Token

open Lexeme Text

-- A text that begins at a place, cut into tokens and the gaps in front of them. The end of input is the last token.
inductive Cuts (file : String) : Position → List Char → List Token → Prop
  | last {p gap} :
    Gap [] gap → Cuts file p gap [⟨.endOfInput, "", .between file (p.afterAll gap) (p.afterAll gap)⟩]
  | token {p gap lexeme rest k ts} :
    Gap (lexeme ++ rest) gap → lexeme ≠ [] → k ≠ .endOfInput → Cuts file (p.afterAll (gap ++ lexeme)) rest ts →
    Cuts file p (gap ++ (lexeme ++ rest))
      (⟨k, .ofList lexeme, .between file (p.afterAll gap) (p.afterAll (gap ++ lexeme))⟩ :: ts)

-- The tokens, each with the place where the gap in front of it begins: the end of the token before it. The first gap begins
-- at `start`.
def openings (start : Int) (ts : List Token) : List (Int × Token) :=
  (start :: ts.map (·.span.stop)).zip ts

theorem openings_nil (start : Int) : openings start [] = [] :=
  rfl

theorem openings_cons (start : Int) (t : Token) (ts : List Token) :
    openings start (t :: ts) = (start, t) :: openings t.span.stop ts :=
  rfl

namespace Cuts

variable {file : String} {p : Position} {cs : List Char} {ts : List Token}

-- A piece of layout belongs to the gap in front of the first token.
theorem layout {piece : List Char} (hl : IsLayout piece cs) (h : Cuts file (p.afterAll piece) cs ts) :
    Cuts file p (piece ++ cs) ts := by
  cases h
  case last hg =>
    rw [← Position.afterAll_append]
    exact .last (.cons (by rwa [List.append_nil]) hg)
  case token gap lexeme rest k ts hg hn hk ht =>
    rw [← Position.afterAll_append, ← List.append_assoc] at ht
    have hc := Cuts.token (.cons hl hg) hn hk ht
    simpa only [← Position.afterAll_append, List.append_assoc] using hc

theorem ordered (h : Cuts file p cs ts) :
    (∀ t ∈ ts, p.offset ≤ t.span.start ∧ t.span.start ≤ t.span.stop ∧ t.span.stop ≤ (p.offset + cs.length : Nat)) ∧
      ts.Pairwise fun t u => t.span.stop ≤ u.span.start := by
  induction h
  case last =>
    simp only [List.mem_singleton, forall_eq, List.pairwise_singleton, and_true, Span.between, Position.afterAll_offset]
    omega
  case token p gap lexeme rest k ts _ _ _ _ hi =>
    obtain ⟨hb, ho⟩ := hi
    simp only [Position.afterAll_offset, List.length_append] at hb
    simp only [List.forall_mem_cons, List.pairwise_cons, Span.between, Position.afterAll_offset, List.length_append]
    refine ⟨⟨by omega, fun t ht => ?_⟩, fun t ht => ?_, ho⟩ <;> have := hb t ht <;> omega

theorem ends (h : Cuts file p cs ts) :
    ∃ w, ts = w ++ [⟨.endOfInput, "", .between file (p.afterAll cs) (p.afterAll cs)⟩] ∧
      ∀ t ∈ w, t.kind ≠ .endOfInput ∧ t.lexeme ≠ "" := by
  induction h
  case last => exact ⟨[], rfl, List.forall_mem_nil _⟩
  case token p gap lexeme rest k ts _ hn hk _ hi =>
    obtain ⟨w, rfl, hw⟩ := hi
    refine ⟨_ :: w, by rw [← Position.afterAll_append, List.append_assoc]; rfl, List.forall_mem_cons.mpr ⟨⟨hk, ?_⟩, hw⟩⟩
    intro he
    exact hn (by simpa using congrArg String.toList he)

-- In the text of which `cs` is the part behind `before`, the spans cut out gaps and lexemes.
theorem placed (h : Cuts file p cs ts) (before : List Char) (hp : p.offset = before.length) :
    ∀ x ∈ openings p.offset ts,
      x.2.lexeme.toList = slice (before ++ cs) x.2.span.start x.2.span.stop ∧
        Gap ((before ++ cs).drop x.2.span.start.toNat) (slice (before ++ cs) x.1 x.2.span.start) := by
  induction h generalizing before
  case last p gap hg =>
    have hs := slice_append before gap [] rfl rfl
    have he := slice_append (before ++ gap) [] [] rfl (by rw [List.append_nil])
    simp only [List.append_nil] at hs he
    rw [openings_cons, openings_nil, List.forall_mem_singleton]
    simp only [Span.between, Position.afterAll_offset, hp, ← List.length_append, Int.toNat_natCast]
    rw [hs, he, List.drop_length]
    exact ⟨rfl, hg⟩
  case token p gap lexeme rest k ts hg _ _ _ hi =>
    have hs := slice_append before gap (lexeme ++ rest) rfl rfl
    have he := slice_append (before ++ gap) lexeme rest rfl rfl
    rw [List.append_assoc before gap] at he
    rw [openings_cons, List.forall_mem_cons]
    refine ⟨?_, ?_⟩
    case refine_1 =>
      simp only [Span.between, Position.afterAll_offset, hp, ← List.length_append, ← List.append_assoc before gap,
        Int.toNat_natCast, List.drop_left]
      rw [List.append_assoc before gap, hs, he]
      exact ⟨String.toList_ofList, hg⟩
    case refine_2 =>
      have hr := hi (before ++ (gap ++ lexeme)) (by simp [hp])
      simp only [List.append_assoc] at hr
      exact hr

theorem rebuilds (h : Cuts file p cs ts) (before : List Char) (hp : p.offset = before.length) :
    ((openings p.offset ts).flatMap fun x => slice (before ++ cs) x.1 x.2.span.start ++ x.2.lexeme.toList) = cs := by
  induction h generalizing before
  case last p gap _ =>
    have hs := slice_append before gap [] rfl rfl
    rw [List.append_nil] at hs
    rw [openings_cons, openings_nil, List.flatMap_singleton]
    simp only [Span.between, Position.afterAll_offset, hp, ← List.length_append]
    rw [hs]
    exact List.append_nil gap
  case token p gap lexeme rest k ts _ _ _ _ hi =>
    have hs := slice_append before gap (lexeme ++ rest) rfl rfl
    have hr := hi (before ++ (gap ++ lexeme)) (by simp [hp])
    simp only [List.append_assoc] at hr
    rw [openings_cons, List.flatMap_cons]
    dsimp only [Span.between]
    rw [hr]
    simp only [Position.afterAll_offset, hp, ← List.length_append]
    rw [hs, String.toList_ofList, List.append_assoc]

end Cuts

theorem scan_cuts {file : String} {p : Position} {found ts : List Token} {cs : List Char}
    (h : scan file p found cs = .ok ts) : ∃ us, ts = found.reverse ++ us ∧ Cuts file p cs us := by
  fun_induction scan file p found cs
  case case1 p found =>
    cases h
    exact ⟨_, rfl, .last .nil⟩
  case case2 => cases h
  case case3 p found c cs length _ _ hf hi =>
    obtain ⟨us, hu, hc⟩ := hi h
    refine ⟨us, hu, ?_⟩
    rw [cut c cs length]
    exact hc.layout (first_layout hf)
  case case4 p found c cs length k _ _ hf hi =>
    obtain ⟨us, hu, hc⟩ := hi h
    have hk := Kind.ne_endOfInput_of_spells (first_spells hf)
    have hg : Gap (c :: cs.take length ++ cs.drop length) [] := .nil
    refine ⟨_ :: us, by rw [hu, List.reverse_cons, List.append_assoc, List.singleton_append], ?_⟩
    rw [cut c cs length]
    exact .token hg (List.cons_ne_nil _ _) hk hc

theorem mem_openings {start : Int} {ts : List Token} {t : Token} (h : t ∈ ts) : ∃ place, (place, t) ∈ openings start ts := by
  induction ts generalizing start
  case nil => cases h
  case cons u ts hi =>
    rw [openings_cons]
    cases h
    case head => exact ⟨start, List.mem_cons_self⟩
    case tail h => exact (hi h).imp fun _ hm => List.mem_cons_of_mem _ hm

-- Tokens are in order and do not overlap, each is the part of the text that its span says, and what is left between them is
-- layout; so the text can be put together from them again.
theorem ofSource_lossless {file source : String} {ts : List Token} (h : ofSource file source = .ok ts) :
    (ts.Pairwise fun t u => t.span.stop ≤ u.span.start) ∧
    (∀ t ∈ ts, 0 ≤ t.span.start ∧ t.span.start ≤ t.span.stop ∧ t.span.stop ≤ source.length ∧
      t.lexeme.toList = slice source.toList t.span.start t.span.stop) ∧
    (∀ x ∈ openings 0 ts, Gap (source.toList.drop x.2.span.start.toNat) (slice source.toList x.1 x.2.span.start)) ∧
    (∃ (w : List Token) (eof : Token), ts = w ++ [eof] ∧ (∀ t ∈ w, t.kind ≠ .endOfInput ∧ t.lexeme ≠ "") ∧
      eof.kind = .endOfInput ∧ eof.lexeme = "" ∧ eof.span.start = source.length ∧ eof.span.stop = source.length) ∧
    ((openings 0 ts).flatMap fun x => slice source.toList x.1 x.2.span.start ++ x.2.lexeme.toList) = source.toList := by
  obtain ⟨us, rfl, hc⟩ := scan_cuts h
  obtain ⟨hb, ho⟩ := hc.ordered
  obtain ⟨w, hw, hn⟩ := hc.ends
  have hp := hc.placed [] rfl
  have hl : (({} : Position).afterAll source.toList).offset = source.length := by
    rw [Position.afterAll_offset, String.length_toList]
    exact Nat.zero_add _
  refine ⟨ho, fun t ht => ?_, fun x hx => (hp x hx).right, ⟨w, _, hw, hn, rfl, rfl, ?_, ?_⟩, hc.rebuilds [] rfl⟩
  case refine_1 =>
    obtain ⟨_, hx⟩ := mem_openings ht
    obtain ⟨hs, hm, he⟩ := hb t ht
    rw [String.length_toList] at he
    refine ⟨hs, hm, ?_, (hp _ hx).left⟩
    simpa using he
  all_goals exact congrArg Nat.cast hl

-- A comment ends in front of its newline, and an escaped quote does not end its string.
theorem ofSource_lossless_comment :
    ∃ ts, ofSource "" "a /**/ //b\n\"\\\"\"" = .ok ts ∧ ts.map (·.lexeme) = ["a", "\n", "\"\\\"\"", ""] ∧
      Gap "\n\"\\\"\"".toList " /**/ //b".toList ∧
      ((openings 0 ts).flatMap fun x =>
        slice "a /**/ //b\n\"\\\"\"".toList x.1 x.2.span.start ++ x.2.lexeme.toList) = "a /**/ //b\n\"\\\"\"".toList := by
  have hl : (ofSource "" "a /**/ //b\n\"\\\"\"").toOption.map (·.map (·.lexeme)) = some ["a", "\n", "\"\\\"\"", ""] := by
    decide +kernel
  have ho : (ofSource "" "a /**/ //b\n\"\\\"\"").toOption.map (fun ts => (openings 0 ts).map fun x => (x.1, x.2.span.start)) =
      some [(0, 0), (1, 10), (11, 11), (15, 15)] := by
    decide +kernel
  cases hts : ofSource "" "a /**/ //b\n\"\\\"\"" <;> rw [hts] at hl ho
  case error => cases hl
  case ok ts =>
    obtain ⟨-, -, hg, -, hr⟩ := ofSource_lossless hts
    have hp : ((openings 0 ts).map fun x => (x.1, x.2.span.start)) = [(0, 0), (1, 10), (11, 11), (15, 15)] := Option.some.inj ho
    have hm : (1, 10) ∈ (openings 0 ts).map fun x => (x.1, x.2.span.start) := by
      rw [hp]
      decide
    obtain ⟨x, hx, he⟩ := List.mem_map.mp hm
    obtain ⟨hf, hs⟩ := Prod.mk.inj he
    have hx := hg x hx
    rw [hf, hs] at hx
    exact ⟨ts, rfl, Option.some.inj hl, hx, hr⟩

end Token
end ParenTree
