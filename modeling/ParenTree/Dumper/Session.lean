import ParenTree.Dumper.Basic

-- A dumper at work: what can be asked of it, one step after the other.

namespace ParenTree.Dumper

inductive Step
  | dump (node : Datum)
  | doDump (node : Datum)
  | layOut (node : Datum) (times : Nat)
  | format (value : Datum)
  | setDepth (depth : Int)
  | indent
  | isNop (node : Datum)

inductive Answer
  | text (s : String)
  | texts (ss : List String)
  | value (d : Datum)
  | truth (b : Bool)
  | done

-- The texts of a value that is laid out several times, each from the depth where the one before has ended.
def formatTimes (d : Dumper) (value : Datum) : Nat → Except Fault (List String) × Dumper
  | 0 => (.ok [], d)
  | n + 1 =>
    match d.format value with
    | (.error fault, d) => (.error fault, d)
    | (.ok text, d) =>
      let (texts, d) := d.formatTimes value n
      (texts.map (text :: ·), d)

def perform (d : Dumper) : Step → Except Fault Answer × Dumper
  | .dump node =>
    let (text, d) := d.dump node
    (text.map .text, d)
  | .doDump node =>
    let (value, d) := d.doDump node
    (value.map .value, d)
  | .layOut node times =>
    match d.doDump node with
    | (.error fault, d) => (.error fault, d)
    | (.ok value, d) =>
      let (texts, d) := d.formatTimes value times
      (texts.map .texts, d)
  | .format value =>
    let (text, d) := d.format value
    (text.map .text, d)
  | .setDepth depth => (.ok .done, { d with depth := depth })
  | .indent => (.ok (.text d.indent), d)
  | .isNop node => (.ok (.truth (d.cls.isNop node)), d)

def performAll (d : Dumper) : List Step → List (Except Fault Answer × Int) × Dumper
  | [] => ([], d)
  | step :: steps =>
    let (answer, d) := d.perform step
    let depth := d.depth
    let (answers, d) := d.performAll steps
    ((answer, depth) :: answers, d)

end ParenTree.Dumper
