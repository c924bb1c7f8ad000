import Determinize.Yaml.Node
import Determinize.Yaml.Scalar.Literal
import Determinize.Yaml.Scalar.Plain
import Determinize.Yaml.Scalar.Quoted

/-!
# Documents

Reads a text as one YAML document. Block collections are told by columns: the parts of a block begin
at one column, and what belongs to a part begins deeper, except that a literal, and the sequence
under a key, may begin at the column of the part. A collection in brackets may run over lines
whatever their columns. A key after a question mark may be any node and run over lines.

Anchors, tags, directives and folded scalars are not read.

Every reader takes a limit on the depth of its calls; `Document.read?` gives one that the length of
the text cannot exceed.
-/

namespace Determinize.Yaml

namespace Document

/-- The text of a scalar without its quotes. -/
def quotedNode (read : Option (List Char × List Char)) : Option (Node × Position) :=
  read.map fun (text, left) => (.scalar false (String.ofList text), .within left)

def plainNode (read : Option (List Char × Position)) : Option (Node × Position) :=
  read.map fun (text, p) => (.scalar true (String.ofList text), p)

mutual

/-- Reads a scalar or a collection in brackets that begins here. -/
def readInline (brackets : Bool) (floor : Nat) : Nat → List Char → Option (Node × Position)
  | 0, _ => none
  | limit + 1, text =>
    match text with
    | '[' :: rest =>
      (readItems floor limit rest).map fun (items, left) => (.sequence items, .within left)
    | '{' :: rest =>
      (readEntries floor limit rest).map fun (entries, left) => (.mapping entries, .within left)
    | '\x27' :: rest => quotedNode (Quoted.readSingle false rest)
    | '\x22' :: rest => quotedNode (Quoted.readDouble .text rest)
    | _ =>
      if Plain.begins brackets text then plainNode (Plain.read brackets floor limit text) else none

/-- Reads the value of a key within brackets, after its colon. -/
def readValue (floor : Nat) : Nat → List Char → Option (Node × Position)
  | 0, _ => none
  | limit + 1, text => do
    let p ← (Position.within text).skipBrackets?
    if p.rest.head?.any fun c => c == ',' || c == ']' || c == '}' then return (.empty, p)
    else readInline true floor limit p.rest

/-- Reads a node within brackets, with its value if it is a key. It is one if a question mark comes
before it or, when it is short and on one line, a colon after it. The key may be missing after a
question mark; in a sequence the mark that stands in its place is then passed over. -/
def readPair (inSequence : Bool) (floor : Nat) :
    Nat → List Char → Option (Node × Option Node × Position)
  | 0, _ => none
  | limit + 1, text => do
    if text.head? = some '?' then
      let p ← (Position.within text.tail).skipBrackets?
      let missing := p.rest.head?.any fun c =>
        c == ':' || c == ',' || c == if inSequence then ']' else '}'
      let (key, q) ←
        if missing then some (.empty, if inSequence then .within p.rest.tail else p)
        else readInline true floor limit p.rest
      let r ← q.skipBrackets?
      if r.rest.head? = some ':' then
        let (value, v) ← readValue floor limit r.rest.tail
        return (key, some value, v)
      else return (key, some .empty, r)
    else
      let (node, p) ← readInline true floor limit text
      let q ← p.skipBrackets?
      if q.column.isNone && q.rest.head? = some ':' then
        if isKeySpan text q.rest then
          let (value, v) ← readValue floor limit q.rest.tail
          return (node, some value, v)
        else none
      else return (node, none, q)

/-- Reads the items of a sequence in brackets. A pair is a mapping of its own. -/
def readItems (floor : Nat) : Nat → List Char → Option (List Node × List Char)
  | 0, _ => none
  | limit + 1, text => do
    let p ← (Position.within text).skipBrackets?
    match p.rest with
    | ']' :: left => return ([], left)
    | rest =>
      let (node, value?, q) ← readPair true floor limit rest
      let item := match value? with
        | some value => .mapping [(node, value)]
        | none => node
      let r ← q.skipBrackets?
      match r.rest with
      | ',' :: more =>
        let (items, left) ← readItems floor limit more
        return (item :: items, left)
      | ']' :: left => return ([item], left)
      | _ => none

/-- Reads the entries of a mapping in brackets. A key without a colon has no value. -/
def readEntries (floor : Nat) : Nat → List Char → Option (List (Node × Node) × List Char)
  | 0, _ => none
  | limit + 1, text => do
    let p ← (Position.within text).skipBrackets?
    match p.rest with
    | '}' :: left => return ([], left)
    | rest =>
      let (key, value?, q) ← readPair false floor limit rest
      let entry := (key, value?.getD .empty)
      let r ← q.skipBrackets?
      match r.rest with
      | ',' :: more =>
        let (entries, left) ← readEntries floor limit more
        return (entry :: entries, left)
      | '}' :: left => return ([entry], left)
      | _ => none

end

/-- Reads a key of a block mapping that begins here, up to after its colon. -/
def readKey (floor limit : Nat) (text : List Char) : Option (Node × List Char) := do
  let (key, p) ← readInline false floor limit text
  let q := p.skip false
  if q.column.isNone && atSign ':' q.rest && isKeySpan text q.rest then
    return (key, q.rest.tail)
  else none

def atMapping (floor limit : Nat) (text : List Char) : Bool :=
  atSign '?' text || (readKey floor limit text).isSome

mutual

/-- Reads a node that begins at `floor` or deeper, and may be missing. A literal may begin one
column before, and so may a sequence where `hosts` allows it, as after a key. -/
def readBlock (floor : Nat) (hosts : Bool) : Nat → Position → Option (Node × Position)
  | 0, _ => none
  | limit + 1, here =>
    let p := here.skip false
    if p.isEnd then some (.empty, p)
    else match p.column with
      | none => readContent floor limit none p.rest
      | some column =>
        if atSign '-' p.rest && (floor ≤ column || (hosts && column + 1 = floor)) then
          (readSequence column (column < floor) limit p.rest.tail).map fun (items, q) =>
            (.sequence items, q)
        else if floor ≤ column || (p.rest.head? = some '|' && column + 1 = floor) then
          readContent floor limit (some column) p.rest
        else some (.empty, p)
termination_by structural limit _ => limit

/-- Reads a literal, a mapping, or what is read in brackets. Only where the column is known may a
mapping begin. -/
def readContent (floor : Nat) : Nat → Option Nat → List Char → Option (Node × Position)
  | 0, _, _ => none
  | limit + 1, column?, text =>
    match text, column? with
    | '|' :: rest, _ =>
      (Literal.read floor rest).map fun (lines, left) =>
        (.scalar false (String.ofList lines), ⟨some 0, left⟩)
    | _, none => readInline false floor limit text
    | _, some column =>
      if atMapping floor limit text then
        (readMapping column limit text).map fun (entries, q) => (.mapping entries, q)
      else readInline false floor limit text
termination_by structural limit _ _ => limit

/-- Reads an entry of a block mapping. A key after a question mark may be any node, and its value,
if it has one, stands after a colon in the column of the question mark. -/
def readEntry (column : Nat) : Nat → List Char → Option ((Node × Node) × Position)
  | 0, _ => none
  | limit + 1, text => do
    if atSign '?' text then
      let (key, q) ← readBlock (column + 1) true limit ⟨some (column + 1), text.tail⟩
      let p := q.skip false
      if p.column = some column && atSign ':' p.rest then
        let (value, r) ← readBlock (column + 1) true limit ⟨some (column + 1), p.rest.tail⟩
        return ((key, value), r)
      else return ((key, .empty), p)
    else
      let (key, rest) ← readKey (column + 1) limit text
      let (value, q) ← readBlock (column + 1) true limit (.within rest)
      return ((key, value), q)
termination_by structural limit _ => limit

/-- Reads the entries of a block mapping from one of them on. -/
def readMapping (column : Nat) : Nat → List Char → Option (List (Node × Node) × Position)
  | 0, _ => none
  | limit + 1, text => do
    let (entry, q) ← readEntry column limit text
    let p := q.skip false
    if p.isEnd then return ([entry], p)
    else
      let here ← p.column
      if here < column then return ([entry], p)
      else if here = column then
        let (entries, r) ← readMapping column limit p.rest
        return (entry :: entries, r)
      else none
termination_by structural limit _ => limit

/-- Reads the rest of a block sequence after the dash of an item. A sequence that is `hosted` by a
key at its column ends before the next key. -/
def readSequence (column : Nat) (hosted : Bool) : Nat → List Char → Option (List Node × Position)
  | 0, _ => none
  | limit + 1, text => do
    let (item, q) ← readBlock (column + 1) false limit ⟨some (column + 1), text⟩
    let p := q.skip false
    if p.isEnd then return ([item], p)
    else
      let here ← p.column
      if here = column && atSign '-' p.rest then
        let (items, r) ← readSequence column hosted limit p.rest.tail
        return (item :: items, r)
      else if here < column || (here = column && hosted) then return ([item], p)
      else none
termination_by structural limit _ => limit

end

/-- Whether nothing is left of a text but blanks, comments and marks of a document's end. -/
def isFinished : Nat → Position → Bool
  | 0, _ => false
  | limit + 1, here =>
    let p := here.skip false
    p.rest.isEmpty
      || (p.isMarker && p.rest.head? == some '.' && isFinished limit (.within (p.rest.drop 3)))

/-- Where the content of a document begins: after the mark of its start, if there is one. -/
def start? (text : List Char) : Option Position :=
  let p := (Position.mk (some 0) text).skip false
  if p.rest.isEmpty then none
  else if p.isMarker then
    if p.rest.head? = some '-' then some (.within (p.rest.drop 3)) else none
  else some p

/-- Reads a text as one document; `none` if it is not one. -/
def read? (text : String) : Option Node := do
  if text.toList.all isReadable then
    let lines := unifyBreaks text.toList
    let limit := 4 * lines.length + 8
    let start ← start? lines
    let (node, p) ← readBlock 0 false limit start
    if isFinished limit p then return node else none
  else none

end Document

end Determinize.Yaml
