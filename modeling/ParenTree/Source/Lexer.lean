import ParenTree.Source.Diagnostic

-- From a source text to its tokens. The text is cut into words one after the other; layout leaves no token, and a token that
-- holds nothing marks the end.

namespace ParenTree.Token

def scan (file : String) (p : Position) (found : List Token) : List Char → Except SourceFault (List Token)
  | [] => .ok (found.reverse ++ [⟨.endOfInput, "", .between file p p⟩])
  | c :: cs =>
    match Lexeme.first c cs with
    | .error cause =>
      .error (.lexical (.between file p { p with offset := p.offset + cause.extent }) cause)
    | .ok (piece, length) =>
      let text := c :: cs.take length
      let q := p.afterAll text
      match piece with
      | .layout => scan file q found (cs.drop length)
      | .token kind => scan file q (⟨kind, .ofList text, .between file p q⟩ :: found) (cs.drop length)
termination_by cs => cs.length
decreasing_by all_goals simp only [List.length_drop, List.length_cons]; omega

def defaultFile : String := "<input>"

def ofSource (file source : String) : Except SourceFault (List Token) :=
  scan file {} [] source.toList

end ParenTree.Token
