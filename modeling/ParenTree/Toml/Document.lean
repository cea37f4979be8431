import ParenTree.Toml.Scalar

-- TOML documents. A document is read statement by statement; besides its content the reader keeps what later statements must not
-- touch: tables that were declared, and whatever was written in one piece.

namespace ParenTree.Toml

structure Read (α : Type) (bound : Nat) where
  value : α
  rest : List Char
  shorter : rest.length < bound

abbrev Result (α : Type) (bound : Nat) := Except Stop (Read α bound)

def skipBlanks (cs : List Char) : List Char :=
  cs.dropWhile isBlank

theorem length_skipBlanks_le (cs : List Char) : (skipBlanks cs).length ≤ cs.length :=
  (List.dropWhile_sublist _).length_le

def commentLength (cs : List Char) : Except Stop Nat :=
  match cs with
  | '#' :: rest => do
    let text := rest.takeWhile (· ≠ '\n')
    checkLegal false text (rest.length - text.length)
    return 1 + text.length
  | _ => .ok 0

def gapLength : (inComment : Bool) → List Char → Except Stop Nat
  | _, [] => .ok 0
  | false, c :: cs =>
    if isBlank c || c = '\n' then (gapLength false cs).map (· + 1)
    else if c = '#' then (gapLength true cs).map (· + 1)
    else .ok 0
  | true, c :: cs =>
    if c = '\n' then (gapLength false cs).map (· + 1)
    else if isIllegal false c then .error (.invalid (.illegalElsewhere c) (cs.length + 1))
    else (gapLength true cs).map (· + 1)

def skipGap (cs : List Char) : Except Stop { rest : List Char // rest.length ≤ cs.length } := do
  let n ← gapLength false cs
  return ⟨cs.drop n, by simp⟩

def isBare (c : Char) : Bool :=
  ('a' ≤ c && c ≤ 'z') || ('A' ≤ c && c ≤ 'Z') || isDigit c || c = '-' || c = '_'
where
  isDigit := Lexeme.isDigit

def isKeyStart (c : Char) : Bool :=
  isBare c || c = '"' || c = '\''

def keyPart (c : Char) (cs : List Char) : Except Stop (String × Nat) :=
  if isBare c then
    let n := Lexeme.run isBare cs
    .ok (.ofList (c :: cs.take n), n)
  else if c = '"' || c = '\'' then lineText c cs
  else .error (.invalid .invalidKey (cs.length + 1))

theorem length_behind_part (c : Char) {n : Nat} {cs rest : List Char} (h : skipBlanks (cs.drop n) = rest) :
    rest.length < (c :: cs).length := by
  have := length_skipBlanks_le (cs.drop n)
  simp only [h, List.length_drop, List.length_cons] at *
  omega

theorem length_behind_dot (c : Char) {n : Nat} {cs rest : List Char} (h : skipBlanks (cs.drop n) = '.' :: rest) :
    (skipBlanks rest).length < (c :: cs).length := by
  have := length_behind_part c h
  have := length_skipBlanks_le rest
  simp only [List.length_cons] at *
  omega

theorem length_behind_key (c : Char) {n : Nat} {cs rest r : List Char} (h : skipBlanks (cs.drop n) = '.' :: rest)
    (hr : r.length < (skipBlanks rest).length) : r.length < (c :: cs).length :=
  Nat.lt_trans hr (length_behind_dot c h)

def key : (cs : List Char) → Result Key cs.length
  | [] => .error (.invalid .invalidKey 0)
  | c :: cs => do
    let (part, n) ← keyPart c cs
    match h : skipBlanks (cs.drop n) with
    | '.' :: rest =>
      let ⟨parts, r, hr⟩ ← key (skipBlanks rest)
      return ⟨part :: parts, r, length_behind_key c h hr⟩
    | rest => return ⟨[part], rest, length_behind_part c h⟩
termination_by cs => cs.length
decreasing_by exact length_behind_dot c h

def addInline (frozen : List Key) (t : Table) (k : Key) (v : Value) : Except Cause Table :=
  if frozen.any (·.isPrefixOf k) then .error (.immutable k)
  else Table.update false (Table.add (.duplicate (k.getLastD "")) (k.getLastD "") v) k.dropLast t

def seenAt {α : Type} (left : Nat) (found : Except Cause α) : Except Stop α :=
  found.mapError (.invalid · left)

def Value.isWhole : Value → Bool
  | array _ | table _ => true
  | _ => false

mutual

def value : (cs : List Char) → Result Value cs.length
  | [] => .error (.invalid .invalidValue 0)
  | c :: cs =>
    if c = '[' then do
      let inner ← skipGap cs
      let found ← arrayItems inner.1
      return ⟨.array found.value, found.rest, by
        have := found.shorter
        have := inner.2
        simp only [List.length_cons]
        omega⟩
    else if c = '\x7b' then
      have h := length_skipBlanks_le cs
      match hi : skipBlanks cs with
      | '\x7d' :: rest => .ok ⟨.table [], rest, by simp only [hi, List.length_cons] at h ⊢; omega⟩
      | _ => do
        let found ← tableEntries [] [] (skipBlanks cs)
        return ⟨.table found.value, found.rest, by have := found.shorter; simp only [List.length_cons]; omega⟩
    else do
      let (v, n) ← scalar (c :: cs)
      return ⟨v, cs.drop (n - 1), by simp only [List.length_drop, List.length_cons]; omega⟩
termination_by cs => 3 * cs.length
decreasing_by
  all_goals simp only [List.length_cons]
  · have := inner.2; omega
  · omega

def arrayItems (cs : List Char) : Result (List Value) cs.length :=
  match cs with
  | ']' :: rest => .ok ⟨[], rest, by simp⟩
  | cs => do
    let item ← value cs
    let behind ← skipGap item.rest
    have h : behind.1.length < cs.length := by have := behind.2; have := item.shorter; omega
    match hb : behind.1 with
    | ']' :: rest => return ⟨[item.value], rest, by simp only [hb, List.length_cons] at h; omega⟩
    | ',' :: rest =>
      let next ← skipGap rest
      have h' : next.1.length < cs.length := by
        have := next.2
        simp only [hb, List.length_cons] at h
        omega
      let items ← arrayItems next.1
      return ⟨item.value :: items.value, items.rest, by have := items.shorter; omega⟩
    | _ => throw (.invalid .unclosedArray behind.1.length)
termination_by 3 * cs.length + 1
decreasing_by all_goals omega

def tableEntries (frozen : List Key) (t : Table) (cs : List Char) : Result Table cs.length := do
  let entry ← pair cs
  let t ← seenAt entry.rest.length (addInline frozen t entry.value.1 entry.value.2)
  have h : (skipBlanks entry.rest).length < cs.length := by
    have := length_skipBlanks_le entry.rest
    have := entry.shorter
    omega
  match hb : skipBlanks entry.rest with
  | '\x7d' :: rest => return ⟨t, rest, by simp only [hb, List.length_cons] at h; omega⟩
  | ',' :: rest =>
    have h' : (skipBlanks rest).length < cs.length := by
      have := length_skipBlanks_le rest
      simp only [hb, List.length_cons] at h
      omega
    let frozen := if entry.value.2.isWhole then entry.value.1 :: frozen else frozen
    let found ← tableEntries frozen t (skipBlanks rest)
    return ⟨found.value, found.rest, by have := found.shorter; omega⟩
  | _ => throw (.invalid .unclosedTable (skipBlanks entry.rest).length)
termination_by 3 * cs.length + 2
decreasing_by all_goals omega

def pair (cs : List Char) : Result (Key × Value) cs.length := do
  let k ← key cs
  match hk : k.rest with
  | '=' :: rest =>
    have h : (skipBlanks rest).length < cs.length := by
      have := length_skipBlanks_le rest
      have := k.shorter
      simp only [hk, List.length_cons] at this
      omega
    let v ← value (skipBlanks rest)
    return ⟨(k.value, v.value), v.rest, by have := v.shorter; omega⟩
  | _ => throw (.invalid .missingEquals k.rest.length)
termination_by 3 * cs.length + 1
decreasing_by omega

end

structure Document where
  content : Table
  -- Keys of what was written in one piece.
  frozen : List Key
  -- Keys of tables that must not be declared again.
  declared : List Key
  -- Keys of tables that must not be declared again once this section has ended.
  pending : List Key
  header : Key

namespace Document

def empty : Document :=
  ⟨[], [], [], [], []⟩

def isFrozen (d : Document) (k : Key) : Bool :=
  d.frozen.any (·.isPrefixOf k)

def endSection (d : Document) : Document :=
  { d with declared := d.pending ++ d.declared, pending := [] }

def declareTable (d : Document) (k : Key) : Except Cause Document := do
  if d.declared.contains k || d.isFrozen k then throw (.declaredTwice k)
  let content ← Table.update true .ok k d.content
  return { d with content := content, declared := k :: d.declared, header := k }

-- The header of one more table of an array. What was said of the tables before it does not hold for this one.
def appendTable (d : Document) (k : Key) : Except Cause Document := do
  if d.isFrozen k then throw (.immutable k)
  let content ← Table.update true (Table.append (k.getLastD "")) k.dropLast d.content
  let others (keys : List Key) : List Key := keys.filter fun other => !k.isPrefixOf other
  return { d with
    content := content
    frozen := others d.frozen
    declared := k :: others d.declared
    header := k }

def through (header k : Key) : List Key :=
  (List.range (k.length - 1)).map fun i => header ++ k.take (i + 1)

def addPair (d : Document) (k : Key) (v : Value) : Except Cause Document := do
  let inner := through d.header k
  match inner.find? d.declared.contains with
  | some k => throw (.redefined k)
  | none =>
    let parent := d.header ++ k.dropLast
    if d.isFrozen parent then throw (.immutable parent)
    let content ← Table.update true (Table.add .occupied (k.getLastD "") v) parent d.content
    return { d with
      content := content
      pending := inner ++ d.pending
      frozen := if v.isWhole then (d.header ++ k) :: d.frozen else d.frozen }

def arrayHeader (d : Document) (cs : List Char) : Result Document cs.length := do
  let k ← key (skipBlanks cs)
  let d ← seenAt k.rest.length (d.endSection.appendTable k.value)
  have h := length_skipBlanks_le cs
  have h' := k.shorter
  match hk : k.rest with
  | ']' :: ']' :: rest => return ⟨d, rest, by simp only [hk, List.length_cons] at h'; omega⟩
  | _ => throw (.invalid .unclosedArrayHeader k.rest.length)

def tableHeader (d : Document) (cs : List Char) : Result Document cs.length := do
  let k ← key (skipBlanks cs)
  let d ← seenAt k.rest.length (d.endSection.declareTable k.value)
  have h := length_skipBlanks_le cs
  have h' := k.shorter
  match hk : k.rest with
  | ']' :: rest => return ⟨d, rest, by simp only [hk, List.length_cons] at h'; omega⟩
  | _ => throw (.invalid .unclosedTableHeader k.rest.length)

def statement (d : Document) (cs : List Char) : Result Document (cs.length + 1) :=
  match cs with
  | '[' :: '[' :: rest => do
    let found ← d.arrayHeader rest
    return ⟨found.value, found.rest, by have := found.shorter; simp only [List.length_cons]; omega⟩
  | '[' :: rest => do
    let found ← d.tableHeader rest
    return ⟨found.value, found.rest, by have := found.shorter; simp only [List.length_cons]; omega⟩
  | '#' :: rest => .ok ⟨d, '#' :: rest, by simp⟩
  | cs => do
    if !(cs.head?.map isKeyStart).getD false then throw (.invalid .invalidStatement cs.length)
    let entry ← pair cs
    let d ← seenAt entry.rest.length (d.addPair entry.value.1 entry.value.2)
    return ⟨d, entry.rest, by have := entry.shorter; omega⟩

def read (d : Document) (cs : List Char) : Except Stop Document :=
  match hl : skipBlanks cs with
  | [] => .ok d
  | '\n' :: rest =>
    have : rest.length < cs.length := by
      have := length_skipBlanks_le cs
      simp only [hl, List.length_cons] at this
      omega
    read d rest
  | _ => do
    let found ← d.statement (skipBlanks cs)
    let n ← commentLength (skipBlanks found.rest)
    match hb : (skipBlanks found.rest).drop n with
    | [] => return found.value
    | '\n' :: rest =>
      have : rest.length < cs.length := by
        have := length_skipBlanks_le cs
        have := found.shorter
        have := length_skipBlanks_le found.rest
        have hb := congrArg List.length hb
        simp only [List.length_drop, List.length_cons] at hb
        omega
      read found.value rest
    | _ => throw (.invalid .unfinishedStatement ((skipBlanks found.rest).drop n).length)
termination_by cs.length

end Document

def parse (text : String) : Except Fault Table :=
  ((Document.empty.read text.toList).map Document.content).mapError (Stop.fault text.toList)

end ParenTree.Toml
