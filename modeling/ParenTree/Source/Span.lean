-- Places in a source text. A position is a place between two characters; a span is a range of the text of a file, located by
-- the line and the column of its first character.

namespace ParenTree

-- Lines and columns count from one, the offset is the number of characters before the place.
structure Position where
  line : Nat := 1
  col : Nat := 1
  offset : Nat := 0
deriving DecidableEq, Repr

namespace Position

def after (p : Position) (c : Char) : Position :=
  if c = '\n' then ⟨p.line + 1, 1, p.offset + 1⟩ else ⟨p.line, p.col + 1, p.offset + 1⟩

def afterAll (p : Position) (cs : List Char) : Position :=
  cs.foldl after p

@[simp]
theorem afterAll_nil (p : Position) : p.afterAll [] = p :=
  rfl

@[simp]
theorem afterAll_cons (p : Position) (c : Char) (cs : List Char) :
    p.afterAll (c :: cs) = (p.after c).afterAll cs :=
  rfl

theorem afterAll_append (p : Position) (cs ds : List Char) :
    p.afterAll (cs ++ ds) = (p.afterAll cs).afterAll ds := by
  simp [afterAll]

@[simp]
theorem after_offset (p : Position) (c : Char) : (p.after c).offset = p.offset + 1 := by
  unfold after
  split <;> rfl

@[simp]
theorem afterAll_offset (p : Position) (cs : List Char) :
    (p.afterAll cs).offset = p.offset + cs.length := by
  induction cs generalizing p with
  | nil => rfl
  | cons c cs ih => simp [ih]; omega

end Position

structure Span where
  file : String
  line : Int
  col : Int
  start : Int := 0
  stop : Int := 0
deriving DecidableEq, Repr

namespace Span

def between (file : String) (p q : Position) : Span :=
  ⟨file, p.line, p.col, p.offset, q.offset⟩

def through (s t : Span) : Span :=
  { s with stop := t.stop }

def format (s : Span) : String :=
  s.file ++ ":" ++ toString s.line ++ ":" ++ toString s.col

end Span
end ParenTree
