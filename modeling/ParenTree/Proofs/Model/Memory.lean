import ParenTree.Proofs.Dumper.Level
import ParenTree.Proofs.Model.Value

-- The handlers for programs on any plain nodes, whether these are well-formed or not: they do not look at the numbers of their
-- placeholders, and step out as often as they step in. So one dumper can be used for any number of dumps.

namespace ParenTree
namespace Model

section

variable {o : Datum} {k : Nat}

theorem renumber_indented (data : List Datum) :
    (indented data).map (Datum.renumber k) = indented (data.map (Datum.renumber k)) :=
  Tree.map_indented (fun _ => rfl) data

section

variable (ho : o.isForeign) (name : String)

include ho

theorem alike_child : Action.Alike k (Datum.renumber k) (child name : Action o _) (child name) :=
  .field ho fun _ hd => .child hd

theorem alike_plain : Action.Alike k (Datum.renumber k) (plain name : Action o _) (plain name) :=
  .field ho fun _ hd => .pure (Datum.renumber_of_isForeign k hd).symm

-- A field that a handler looks into is the same whatever the numbers are.
theorem alike_plain_bind {f : Datum → Action o Datum}
    (hf : ∀ d, d.isForeign → Action.Alike k (Datum.renumber k) (f d) (f d)) :
    Action.Alike k (Datum.renumber k) (plain name >>= f) (plain name >>= f) := by
  simp only [plain, bind_assoc, pure_bind]
  exact .field ho fun d hd => hf d.1 hd

theorem alike_children : Action.Alike k (List.map (Datum.renumber k)) (children name : Action o _) (children name) :=
  .elements ho fun _ he => .mapM_child he

theorem alike_lines : Action.Alike k (List.map (Datum.renumber k)) (lines name : Action o _) (lines name) :=
  .bind (alike_children ho name) fun ds => .pure (Tree.map_onLines (fun _ => rfl) ds).symm

end

-- Handlers return lists, most of which are led by a text.
theorem alike_list {ds ds' : List Datum} (h : ds' = ds.map (Datum.renumber k)) :
    Action.Alike k (Datum.renumber k) (pure (.list ds) : Action o Datum) (pure (.list ds')) :=
  .pure (by rw [Datum.renumber_list, h])

end

theorem uniform_dumpList : Handler.Uniform dumpList := by
  intro o ho k
  rw [dumpList]
  split
  case h_1 items hi => exact Action.Alike.bind (.mapM_child (Datum.hereditary_isForeign.items? ho hi)) fun ds => alike_list rfl
  case h_2 => exact .done _

theorem uniform_dumpNop : Handler.Uniform dumpNop :=
  fun _ _ k => Action.Alike.pure (Datum.renumber_group k []).symm

theorem uniform_dumpProgram : Handler.Uniform dumpProgram :=
  fun _ ho _ => Action.Alike.bind (alike_lines ho "body") fun ds => alike_list (congrArg (_ :: ·) (renumber_indented ds).symm)

theorem uniform_dumpLiteral : Handler.Uniform dumpLiteral := by
  intro o ho k
  refine alike_plain_bind ho "kind" fun kind _ => ?_
  split
  case h_2 => exact alike_plain ho "value"
  case h_1 =>
    refine alike_plain_bind ho "value" fun value _ => ?_
    split
    case h_1 => exact .pure rfl
    case h_2 => exact .throw _

theorem uniform_dumpIdentifier : Handler.Uniform dumpIdentifier :=
  fun _ ho _ => alike_plain ho "name"

theorem uniform_dumpUnary : Handler.Uniform dumpUnary :=
  fun _ ho _ => Action.Alike.bind (alike_plain ho "op") fun _ => .bind (alike_child ho "expr") fun _ => alike_list rfl

theorem uniform_dumpBinary : Handler.Uniform dumpBinary :=
  fun _ ho _ => Action.Alike.bind (alike_plain ho "op") fun _ => .bind (alike_child ho "left") fun _ =>
    .bind (alike_child ho "right") fun _ => alike_list rfl

theorem uniform_dumpAssign : Handler.Uniform dumpAssign :=
  fun _ ho _ => Action.Alike.bind (alike_child ho "target") fun _ => .bind (alike_child ho "value") fun _ => alike_list rfl

theorem uniform_dumpCall : Handler.Uniform dumpCall :=
  fun _ ho _ => Action.Alike.bind (alike_child ho "callee") fun _ => .bind (alike_children ho "args") fun _ => alike_list rfl

theorem uniform_dumpListExpr : Handler.Uniform dumpListExpr :=
  fun _ ho _ => Action.Alike.bind (alike_children ho "items") fun _ => alike_list rfl

theorem uniform_dumpBlock : Handler.Uniform dumpBlock := by
  intro o ho k
  refine alike_plain_bind ho "statements" fun statements _ => ?_
  split
  case isTrue => exact alike_list rfl
  case isFalse =>
    exact .bind (alike_lines ho "statements") fun ds => alike_list (congrArg (_ :: ·) (renumber_indented ds).symm)

theorem renumber_branch (k : Nat) (name : String) (d : Datum) :
    (branch name d).map (Datum.renumber k) = branch name (d.renumber k) := by
  rw [branch, List.map_cons, List.map_cons, Datum.renumber_group]
  rfl

theorem uniform_dumpConditional : Handler.Uniform dumpConditional := by
  intro o ho k
  refine Action.Alike.bind (alike_child ho "condition") fun condition => .bind (alike_child ho "then_block") fun thenBlock =>
    .field ho fun elseBranch he => .bind (.isNop he) fun b => ?_
  -- With another branch or without, it comes to the same list in the end.
  have hl (others : List Datum) : Action.Alike k (Datum.renumber k)
      (pure (.list (.text "if" :: condition :: indented (branch "then" thenBlock ++ others))) : Action o Datum)
      (pure (.list (.text "if" :: condition.renumber k ::
        indented (branch "then" (thenBlock.renumber k) ++ others.map (Datum.renumber k))))) := by
    refine alike_list ?_
    rw [← renumber_branch, ← List.map_append, ← renumber_indented]
    rfl
  cases b
  case true => exact hl []
  case false =>
    simp only [Bool.false_eq_true, if_false, id, bind_map_left]
    refine .bind (.child he) fun d => ?_
    rw [← renumber_branch]
    exact hl (branch "else" d)

theorem uniform_dumpLet : Handler.Uniform dumpLet :=
  fun _ ho _ => Action.Alike.bind (alike_plain ho "name") fun _ => .bind (alike_child ho "expr") fun _ => alike_list rfl

theorem uniform_dumpReturn : Handler.Uniform dumpReturn := by
  intro o ho k
  refine Action.Alike.field ho fun value hv => .bind (.isNop hv) fun b => ?_
  cases b
  case true => exact alike_list rfl
  case false => exact .bind (.child hv) fun _ => alike_list rfl

theorem uniform_dumpFunction : Handler.Uniform dumpFunction := by
  intro o ho k
  refine Action.Alike.bind (alike_plain ho "name") fun _ => .elements ho fun params hp =>
    .bind (alike_child ho "body") fun _ => ?_
  have hr : (params.map Subtype.val).map (Datum.renumber k) = params.map Subtype.val := by
    rw [List.map_map]
    exact List.map_congr_left fun d hd => Datum.renumber_of_isForeign k (hp d hd)
  refine alike_list ?_
  simp only [List.map_cons, renumber_indented, Datum.renumber_list, hr]
  rfl

section

variable {o d : Datum} {data : List Datum}

theorem rise_branch (h : d.rise = 0) (name : String) : ∀ e ∈ branch name d, e.rise = 0 := by
  simp [branch, Datum.rise, Datum.riseAll, h]

section

variable (ho : o.isPlain) (name : String)

include ho

theorem yields_child : Action.Yields (·.rise = 0) (child name : Action o _) :=
  .bind (.field ho name) fun _ hd => .child hd

theorem yields_plain : Action.Yields (·.rise = 0) (plain name : Action o _) :=
  .bind (.field ho name) fun _ hd => .pure (Datum.rise_of_isPlain hd)

theorem yields_children : Action.Yields (∀ d ∈ ·, d.rise = 0) (children name : Action o _) :=
  .bind (.elements ho name) fun _ he => .mapM_child he

theorem yields_lines : Action.Yields (∀ d ∈ ·, d.rise = 0) (lines name : Action o _) :=
  .bind (yields_children ho name) fun _ hs =>
    .pure (List.forall_mem_flatMap.mpr fun d hd => by simpa [Datum.rise] using hs d hd)

end

theorem yields_list (h : ∀ d ∈ data, d.rise = 0) : Action.Yields (·.rise = 0) (pure (.list data) : Action o Datum) :=
  .pure (Datum.riseAll_eq_zero h)

theorem yields_led (w : String) (h : ∀ d ∈ data, d.rise = 0) :
    Action.Yields (·.rise = 0) (pure (.list (.text w :: data)) : Action o Datum) :=
  yields_list (List.forall_mem_cons.mpr ⟨rfl, h⟩)

-- What is stepped into is stepped out of.
theorem yields_indented (w : String) {front : List Datum} (hf : ∀ d ∈ front, d.rise = 0) (h : ∀ d ∈ data, d.rise = 0) :
    Action.Yields (·.rise = 0) (pure (.list (.text w :: (front ++ indented data))) : Action o Datum) := by
  refine .pure ?_
  simp [indented, Datum.rise, Datum.riseAll, Datum.riseAll_append, Datum.riseAll_eq_zero hf, Datum.riseAll_eq_zero h]

end

theorem level_dumpList : Handler.Level dumpList := by
  intro o ho
  rw [dumpList]
  split
  case h_1 items hi => exact .bind (.mapM_child (Datum.hereditary_isPlain.items? ho hi)) fun _ hs => yields_list hs
  case h_2 => exact .throw _

theorem level_dumpNop : Handler.Level dumpNop :=
  fun _ _ => .pure rfl

theorem level_dumpProgram : Handler.Level dumpProgram :=
  fun _ ho => .bind (yields_lines ho "body") fun _ hs => yields_indented "program" (List.forall_mem_nil _) hs

theorem level_dumpLiteral : Handler.Level dumpLiteral := by
  intro o ho
  refine .bind (yields_plain ho "kind") fun kind _ => ?_
  split
  case h_2 => exact yields_plain ho "value"
  case h_1 =>
    refine .bind (yields_plain ho "value") fun value _ => ?_
    split
    case h_1 => exact .pure rfl
    case h_2 => exact .throw _

theorem level_dumpIdentifier : Handler.Level dumpIdentifier :=
  fun _ ho => yields_plain ho "name"

theorem level_dumpUnary : Handler.Level dumpUnary :=
  fun _ ho => .bind (yields_plain ho "op") fun _ h₁ => .bind (yields_child ho "expr") fun _ h₂ =>
    yields_list (by simp [h₁, h₂])

theorem level_dumpBinary : Handler.Level dumpBinary :=
  fun _ ho => .bind (yields_plain ho "op") fun _ h₁ => .bind (yields_child ho "left") fun _ h₂ =>
    .bind (yields_child ho "right") fun _ h₃ => yields_list (by simp [h₁, h₂, h₃])

theorem level_dumpAssign : Handler.Level dumpAssign :=
  fun _ ho => .bind (yields_child ho "target") fun _ h₁ => .bind (yields_child ho "value") fun _ h₂ =>
    yields_led "=" (by simp [h₁, h₂])

theorem level_dumpCall : Handler.Level dumpCall :=
  fun _ ho => .bind (yields_child ho "callee") fun _ h₁ => .bind (yields_children ho "args") fun _ h₂ =>
    yields_led "call" (List.forall_mem_cons.mpr ⟨h₁, h₂⟩)

theorem level_dumpListExpr : Handler.Level dumpListExpr :=
  fun _ ho => .bind (yields_children ho "items") fun _ hs => yields_led "[]" hs

theorem level_dumpBlock : Handler.Level dumpBlock := by
  intro o ho
  refine .bind (yields_plain ho "statements") fun statements _ => ?_
  split
  case isTrue => exact yields_led "block" (List.forall_mem_nil _)
  case isFalse => exact .bind (yields_lines ho "statements") fun _ hs => yields_indented "block" (List.forall_mem_nil _) hs

theorem level_dumpConditional : Handler.Level dumpConditional := by
  intro o ho
  refine .bind (yields_child ho "condition") fun condition hc => .bind (yields_child ho "then_block") fun thenBlock ht =>
    .bind (.field ho "else_branch") fun elseBranch he => .bind (.isNop _) fun b _ => ?_
  -- The branches stand between one step in and one step out, however many there are.
  have hl (others : List Datum) (hs : ∀ d ∈ others, d.rise = 0) : Action.Yields (·.rise = 0)
      (pure (.list (.text "if" :: condition :: indented (branch "then" thenBlock ++ others))) : Action o Datum) :=
    yields_indented "if" (List.forall_mem_singleton.mpr hc) (List.forall_mem_append.mpr ⟨rise_branch ht "then", hs⟩)
  cases b
  case true => exact hl [] (List.forall_mem_nil _)
  case false =>
    simp only [Bool.false_eq_true, if_false, bind_map_left]
    exact .bind (.child he) fun d hd => hl (branch "else" d) (rise_branch hd "else")

theorem level_dumpLet : Handler.Level dumpLet :=
  fun _ ho => .bind (yields_plain ho "name") fun _ h₁ => .bind (yields_child ho "expr") fun _ h₂ =>
    yields_led "let" (by simp [h₁, h₂])

theorem level_dumpReturn : Handler.Level dumpReturn := by
  intro o ho
  refine .bind (.field ho "expr") fun value hv => .bind (.isNop _) fun b _ => ?_
  cases b
  case true => exact yields_led "return" (List.forall_mem_nil _)
  case false => exact .bind (.child hv) fun _ hd => yields_led "return" (List.forall_mem_singleton.mpr hd)

theorem level_dumpFunction : Handler.Level dumpFunction := by
  intro o ho
  refine .bind (yields_plain ho "name") fun name hn => .bind (.elements ho "params") fun params hp =>
    .bind (yields_child ho "body") fun body hb => ?_
  have hs : (Datum.list (params.map Subtype.val)).rise = 0 :=
    Datum.riseAll_eq_zero (List.forall_mem_map.mpr fun d hd => Datum.rise_of_isPlain (hp d hd))
  have hf : ∀ d ∈ [name, .list (params.map Subtype.val)], d.rise = 0 :=
    List.forall_mem_cons.mpr ⟨hn, List.forall_mem_singleton.mpr hs⟩
  exact yields_indented "fn" hf (by simp [hb, Datum.rise])

end Model

theorem DumperClass.uniform_model : DumperClass.model.Uniform := by
  simp only [Uniform, model, extend, plain, Model.handlers, List.append_nil, List.forall_mem_cons]
  exact ⟨Model.uniform_dumpList, Model.uniform_dumpNop, Model.uniform_dumpProgram, Model.uniform_dumpLiteral,
    Model.uniform_dumpIdentifier, Model.uniform_dumpUnary, Model.uniform_dumpBinary, Model.uniform_dumpAssign,
    Model.uniform_dumpCall, Model.uniform_dumpListExpr, Model.uniform_dumpBlock, Model.uniform_dumpConditional,
    Model.uniform_dumpLet, Model.uniform_dumpReturn, Model.uniform_dumpFunction, List.forall_mem_nil _⟩

theorem DumperClass.level_model : DumperClass.model.Level := by
  simp only [Level, model, extend, plain, Model.handlers, List.append_nil, List.forall_mem_cons]
  exact ⟨Model.level_dumpList, Model.level_dumpNop, Model.level_dumpProgram, Model.level_dumpLiteral,
    Model.level_dumpIdentifier, Model.level_dumpUnary, Model.level_dumpBinary, Model.level_dumpAssign,
    Model.level_dumpCall, Model.level_dumpListExpr, Model.level_dumpBlock, Model.level_dumpConditional,
    Model.level_dumpLet, Model.level_dumpReturn, Model.level_dumpFunction, List.forall_mem_nil _⟩

namespace Dumper

-- Every dump of a session gives what it gives on a new dumper, whether it fails or not, and the depth stays as it is.
theorem model_has_no_memory (depth : Int) {nodes : List Datum} (h : ∀ node ∈ nodes, node.isPlain) :
    ((new .model depth).performAll (nodes.map .dump)).1 =
      nodes.map fun node => (((new .model depth).dump node).1.map .text, depth) :=
  performAll_dumps DumperClass.level_model DumperClass.uniform_model (.of_new .model depth) h

-- A block with one statement, which may be anything.
def blockOf (statement : Datum) : Datum :=
  .node (.syntactic "BlockExpr") [("statements", .list [statement])]

def numberFive : Datum :=
  .node (.syntactic "LiteralExpr") [("kind", .text "int"), ("value", .int 5)]

def identifierX : Datum :=
  .node (.syntactic "IdentifierExpr") [("name", .text "x")]

theorem handle_blockOf {d e : Dumper} {statement : Datum} (h : d.route (blockOf statement) = (.ok Model.dumpBlock, e)) :
    d.handle (blockOf statement) = (.ok (.group (.literal "block" ::
      Model.indented [.marker .lineBreak, .unfilled (.asked e.nextTag)])), e.listening.ask statement) := by
  rw [handle_of_route h]
  simp only [Datum.normalize_eq_normal]
  rfl

-- A literal that is no text turns up when the block has stepped in, but nothing has been laid out yet.
theorem dump_blockOf_numberFive : ((new .model 1).dump (blockOf numberFive)).1 =
    .error (.dump (.malformed "int" (some "ModelTreeDumper.dump_LiteralExpr"))) := by
  have hc : (((new .model 1).note (.dumping "BlockExpr" 1)).opening (blockOf numberFive)).Course _ ⟨_, ⟨1, _⟩ :: [], _⟩ :=
    .call (handle_blockOf rfl) .refl
  exact dump_of_failed hc rfl

theorem dump_blockOf_identifierX : ((new .model 1).dump (blockOf identifierX)).1 = .ok "(block\n    x)" := by
  have hc : (((new .model 1).note (.dumping "BlockExpr" 1)).opening (blockOf identifierX)).Course _ ⟨_, [], _⟩ :=
    .call (handle_blockOf rfl) (.call rfl .refl)
  rw [dump_of_done hc, format, Layout.flatten_eq]
  rfl

theorem blocks_dump_as_new :
    ((new .model 1).performAll [.dump (blockOf numberFive), .dump (blockOf identifierX), .dump (blockOf identifierX)]).1 =
      [(.error (.dump (.malformed "int" (some "ModelTreeDumper.dump_LiteralExpr"))), 1), (.ok (.text "(block\n    x)"), 1),
        (.ok (.text "(block\n    x)"), 1)] := by
  have hn : ∀ node ∈ [blockOf numberFive, blockOf identifierX, blockOf identifierX], node.isPlain := List.all_eq_true.mp rfl
  have hs := model_has_no_memory 1 hn
  simp only [List.map_cons, List.map_nil, dump_blockOf_numberFive, dump_blockOf_identifierX] at hs
  exact hs

end Dumper
end ParenTree
