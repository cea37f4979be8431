import ParenTree.Layout.Join
import ParenTree.Proofs.Dumper.Placeholder
import ParenTree.Proofs.Steps

-- The words of a value by recursion, without a stack, and the text of words from left to right.

namespace ParenTree

namespace Datum

open Layout (indentation)

mutual

-- The words of a datum that begins at `depth`, and the depth behind it.
def words (depth : Int) : Datum → Except DumpFault (List String × Int)
  | literal s => return ([s], depth)
  | group items => do
    let inside ← allWords depth items
    return ("(" :: inside.1 ++ [")"], inside.2)
  | marker .lineBreak => return (["\n" ++ indentation depth], depth)
  | marker .indent => return ([], depth + 1)
  | marker .dedent => return ([], depth - 1)
  | filled _ content => content.words depth
  | d => .error (.malformed d.typeName (some "flatten"))

def allWords (depth : Int) : List Datum → Except DumpFault (List String × Int)
  | [] => return ([], depth)
  | d :: ds => do
    let first ← d.words depth
    let others ← allWords first.2 ds
    return (first.1 ++ others.1, others.2)

end

theorem allWords_append (depth : Int) (ds es : List Datum) :
    allWords depth (ds ++ es) = (do
      let first ← allWords depth ds
      let others ← allWords first.2 es
      return (first.1 ++ others.1, others.2)) := by
  induction ds generalizing depth
  case nil =>
    rw [List.nil_append, allWords]
    exact (bind_pure _).symm
  case cons d ds hi => simp [allWords, hi]

section

variable {depth depth₁ depth₂ : Int} {d : Datum} {ds es : List Datum} {ws ws' : List String}

theorem allWords_cons_ok (h : d.words depth = .ok (ws, depth₁)) (h' : allWords depth₁ ds = .ok (ws', depth₂)) :
    allWords depth (d :: ds) = .ok (ws ++ ws', depth₂) := by
  rw [allWords, h]
  show (do let others ← allWords depth₁ ds; pure (ws ++ others.1, others.2)) = _
  rw [h']
  rfl

theorem allWords_append_ok (h : allWords depth ds = .ok (ws, depth₁)) (h' : allWords depth₁ es = .ok (ws', depth₂)) :
    allWords depth (ds ++ es) = .ok (ws ++ ws', depth₂) := by
  rw [allWords_append, h]
  show (do let others ← allWords depth₁ es; pure (ws ++ others.1, others.2)) = _
  rw [h']
  rfl

theorem allWords_one (h : d.words depth = .ok (ws, depth₁)) : allWords depth [d] = .ok (ws, depth₁) := by
  simpa using allWords_cons_ok h (show allWords depth₁ [] = .ok ([], depth₁) from rfl)

theorem words_group_ok (h : allWords depth ds = .ok (ws, depth₁)) :
    (group ds).words depth = .ok ("(" :: ws ++ [")"], depth₁) := by
  rw [words, h]
  rfl

end

theorem allWords_map {f : Datum → Datum} {ds : List Datum} (h : ∀ d ∈ ds, ∀ depth, (f d).words depth = d.words depth)
    (depth : Int) : allWords depth (ds.map f) = allWords depth ds := by
  induction ds generalizing depth
  case nil => rfl
  case cons d ds hi =>
    simp only [List.map_cons, allWords, h d List.mem_cons_self, hi fun e he => h e (List.mem_cons_of_mem d he)]

theorem allWords_error {ds : List Datum} {depth : Int} {fault : DumpFault}
    (h : ∀ d ∈ ds, ∀ {depth fault}, d.words depth = .error fault → ∀ depth', d.words depth' = .error fault)
    (he : allWords depth ds = .error fault) (depth' : Int) : allWords depth' ds = .error fault := by
  induction ds generalizing depth depth'
  case nil => cases he
  case cons d ds hi =>
    have hd {depth : Int} {fault : DumpFault} := @h d List.mem_cons_self depth fault
    simp only [allWords] at he ⊢
    cases hw : d.words depth
    case error =>
      rw [hw] at he
      rw [hd hw depth']
      exact he
    case ok first =>
      cases hw' : d.words depth'
      case error => cases hw.symm.trans (hd hw' depth)
      case ok first' =>
        rw [hw] at he
        have hs : allWords first'.2 ds = .error fault :=
          hi (fun e he => h e (List.mem_cons_of_mem d he)) (error_of_bind_pure he) first'.2
        simp only [hs, bind, Except.bind]

-- Whether a value can be laid out, and what is to blame if it cannot, does not depend on the depth.
theorem words_error {d : Datum} {depth : Int} {fault : DumpFault} (h : d.words depth = .error fault) (depth' : Int) :
    d.words depth' = .error fault := by
  induction d using inductInside generalizing depth fault depth'
  case group items hi =>
    simp only [words] at h ⊢
    have hs : allWords depth' items = .error fault :=
      allWords_error (fun d hd => hi d hd) (error_of_bind_pure h) depth'
    simp only [hs, bind, Except.bind]
  case filled content hi => exact hi h depth'
  case literal => cases h
  case marker m => cases m <;> cases h
  all_goals exact h

-- A filled placeholder has the words of its content, so looking into it makes no difference.
theorem words_reveal (d : Datum) (depth : Int) : d.reveal.words depth = d.words depth := by
  induction d using inductInside generalizing depth
  case group items hi =>
    rw [reveal_group, words, words, allWords_map hi]
  case filled tag content hi =>
    cases tag
    case asked => exact hi depth
    case given => exact hi depth
  all_goals rfl

end Datum

namespace Layout

open Datum

-- The words of a stack come behind those that are there.
theorem emit_eq (depth : Int) (ws : List String) (stack : List Datum) :
    emit depth ws stack = (do
      let out ← allWords depth stack
      return (ws.reverse ++ out.1, out.2)) := by
  fun_induction emit depth ws stack
  case case1 =>
    simp only [allWords, pure_bind, List.append_nil]
    rfl
  case case2 hi | case4 hi | case5 hi | case6 hi | case7 hi => simp [hi, allWords, words]
  case case3 hi => simp [hi, allWords, words, allWords_append]
  case case8 hl hg hb hi hd hf =>
    rw [allWords, words]
    · rfl
    all_goals assumption

theorem flatten_eq (value : Datum) (depth : Int) : flatten value depth = value.words depth := by
  simp [flatten, emit_eq, allWords]

-- The text of words behind a word that needs no space behind it, or behind one that does.
def glue (tight : Bool) : List String → String
  | [] => ""
  | word :: ws =>
    (if word ≠ ")" && !tight && !word.toList.any Text.isBlank then " " else "") ++ word ++ glue (opens word) ws

theorem joinBehind_eq (text previous : String) (ws : List String) :
    joinBehind text previous ws = text ++ glue (opens previous) ws := by
  induction ws generalizing text previous
  case nil => simp [joinBehind, glue]
  case cons word ws hi => simp [joinBehind, glue, hi, needsSpace, String.append_assoc]

theorem join_eq (ws : List String) : join ws = glue true ws := by
  cases ws
  case nil => rfl
  case cons word ws => simp [join, joinBehind_eq, glue]

theorem glue_openParen (tight : Bool) (ws : List String) :
    glue tight ("(" :: ws) = (if tight then "" else " ") ++ "(" ++ glue true ws := by
  cases tight <;> rfl

theorem glue_closeParen (tight : Bool) (ws : List String) : glue tight (")" :: ws) = ")" ++ glue false ws := by
  cases tight <;> rfl

theorem toList_lineBreak (depth : Int) :
    ("\n" ++ indentation depth).toList = '\n' :: List.replicate (2 * depth.toNat) ' ' := by
  simp [indentation]

-- A line break is blank, at its end too, so nothing comes before it or behind it.
theorem glue_lineBreak (tight : Bool) (depth : Int) (ws : List String) :
    glue tight (("\n" ++ indentation depth) :: ws) = "\n" ++ indentation depth ++ glue true ws := by
  have hb : ("\n" ++ indentation depth).toList.any Text.isBlank = true := by
    rw [toList_lineBreak]
    rfl
  have ho : opens ("\n" ++ indentation depth) = true := by
    rw [opens, toList_lineBreak]
    cases 2 * depth.toNat
    case zero => rfl
    case succ n =>
      rw [List.getLast?_cons, List.getLast?_replicate]
      rfl
  rw [glue, hb, ho, Bool.not_true, Bool.and_false]
  simp

end Layout
end ParenTree
