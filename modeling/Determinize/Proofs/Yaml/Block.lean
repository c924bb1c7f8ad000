import Determinize.Proofs.Yaml.Printable

/-!
Blocks are read back. That a node is read from what is written of it (`Reads`) says nothing of what comes
after, so it is proved of scalars first and of sequences and mappings by induction over their parts. The
readers get along with two calls for every character.
-/

namespace Determinize.Yaml.Document

open Position

variable {c : Char} {text rest token : List Char} {node : Node} {floor column k limit : Nat}
  {column? : Option Nat} {hosts : Bool} {next : List Char → Prop}

/-- What is written is read as the node, whatever may come next, and the reader then goes on at the
start of the next line. -/
def Reads (floor : Nat) (hosts : Bool) (column? : Option Nat) (written : List Char) (node : Node)
    (next : List Char → Prop) : Prop :=
  ∀ rest limit, next rest → 2 * written.length ≤ limit →
    ∃ q, readBlock floor hosts limit ⟨column?, written ++ rest⟩ = some (node, q) ∧
      q.skip false = (lineStart rest).skip false

theorem Reads.mono {next' : List Char → Prop} (reads : Reads floor hosts column? token node next)
    (implied : ∀ rest, next' rest → next rest) : Reads floor hosts column? token node next' :=
  fun rest limit after enough => reads rest limit (implied rest after) enough

section

variable {here : Position}

theorem readBlock_within (skipped : here.skip false = ⟨none, c :: rest⟩) :
    readBlock floor hosts (limit + 1) here = readContent floor limit none (c :: rest) := by
  rw [readBlock, skipped]
  rfl

theorem readBlock_at (skipped : here.skip false = ⟨some k, text⟩)
    (inside : (Position.mk (some k) text).isEnd = false) (unsigned : atSign '-' text = false)
    (deep : floor ≤ k) :
    readBlock floor hosts (limit + 1) here = readContent floor limit (some k) text := by
  rw [readBlock, skipped]
  simp [inside, unsigned, deep]

/-- The sequence of a key begins at the column of the key. -/
theorem readBlock_hosted (skipped : here.skip false = ⟨some column, '-' :: ' ' :: rest⟩) :
    readBlock (column + 1) true (limit + 1) here =
      (readSequence column true limit (' ' :: rest)).map fun (items, q) => (.sequence items, q) := by
  have inside : (Position.mk (some column) ('-' :: ' ' :: rest)).isEnd = false := isEnd_opens .item
  have item : atSign '-' ('-' :: ' ' :: rest) = true := rfl
  rw [readBlock, skipped]
  simp [inside, item]

end

/-! ### Scalars -/

theorem skip_space (column? : Option Nat) (rest : List Char) (heads : Scalar.Heads token) :
    (Position.mk column? (' ' :: token ++ rest)).skip false =
      ⟨column?.map (· + 1), token ++ rest⟩ := by
  obtain ⟨c, more, rfl, visible⟩ := heads.visible
  rw [List.cons_append, skip, skipFrom_space]
  exact skip_at visible

theorem readBlock_space (heads : Scalar.Heads token) (deep : ∀ k ∈ column?, floor ≤ k + 1) :
    readBlock floor hosts (limit + 1) ⟨column?, ' ' :: token ++ rest⟩ =
      readContent floor limit (column?.map (· + 1)) (token ++ rest) := by
  have skipped := skip_space column? rest heads
  obtain ⟨c, more, rfl, visible⟩ := heads.visible
  cases column? with
  | none => exact readBlock_within skipped
  | some k =>
    exact readBlock_at skipped (isEnd_cons (by simp)) (heads.unsigned '-' (.inl rfl) rest) (deep k rfl)

theorem reads_write (inBlock : 1 ≤ floor) (deep : ∀ k ∈ column?, floor ≤ k + 1) :
    Reads floor hosts column? (' ' :: Scalar.write (floor + 1) text) (Scalar.node text) (Ends floor) := by
  intro rest limit after enough
  have heads : Scalar.Heads (Scalar.write (floor + 1) text) := Scalar.heads_write
  obtain ⟨c, more, some, _⟩ := heads.visible
  have length : 2 ≤ (' ' :: Scalar.write (floor + 1) text).length := by simp [some]
  -- one call for the block and at most three for its content
  obtain ⟨n, rfl⟩ : ∃ n, limit = n + 3 + 1 := ⟨limit - 4, by omega⟩
  rw [readBlock_space heads deep]
  exact readContent_write inBlock after

/-- What is written as it is without regard to its meaning. -/
theorem reads_written (written : Plain.Written text) :
    Reads floor hosts none (' ' :: text ++ ['\n']) (.scalar true (String.ofList text)) (Ends floor) := by
  intro rest limit after enough
  have length : (' ' :: text ++ ['\n']).length = text.length + 2 := by simp
  obtain ⟨n, rfl⟩ : ∃ n, limit = n + 2 + 1 + 1 := ⟨limit - 4, by omega⟩
  have heads := Scalar.heads_of_written written
  have read : readInline false floor (n + 2) (text ++ ['\n'] ++ rest) =
      some (.scalar true (String.ofList text), (lineStart rest).skip false) := by
    rw [List.append_assoc]
    exact readInline_written written after
  refine ⟨_, ?_, skip_skip after⟩
  rw [List.cons_append, readBlock_space heads (by simp)]
  exact readContent_of_readInline heads read (skip_skip after) after

theorem reads_noItems : Reads floor hosts none [' ', '[', ']', '\n'] (.sequence []) next := by
  intro rest limit after enough
  have length : 8 ≤ limit := enough
  obtain ⟨n, rfl⟩ : ∃ n, limit = n + 4 := ⟨limit - 4, by omega⟩
  exact ⟨within ('\n' :: rest), rfl, skip_within_break⟩

/-! ### Sequences -/

/-- What is written of the items of a sequence, each behind a dash at the column. -/
def writeItems (column : Nat) (items : List (List Char × Node)) : List Char :=
  items.flatMap fun item => List.replicate column ' ' ++ '-' :: ' ' :: item.1

/-- What is written of an item after its dash. -/
structure IsItem (column : Nat) (item : List Char × Node) : Prop where
  printable : ∀ c ∈ item.1, isPrintable c = true
  reads : Reads (column + 1) false (some (column + 1)) (' ' :: item.1) item.2 (Ends (column + 1))

theorem isPrintable_writeItems {items : List (List Char × Node)}
    (each : ∀ i ∈ items, IsItem column i) : ∀ c ∈ writeItems column items, isPrintable c = true := by
  intro c member
  obtain ⟨item, listed, written⟩ := List.mem_flatMap.mp member
  have dash : ∀ c ∈ ['-', ' '], isPrintable c = true := List.all_eq_true.mp rfl
  rcases List.mem_append.mp written with margin | written
  · exact isPrintable_replicate c margin
  · rcases List.mem_append.mp (show c ∈ ['-', ' '] ++ item.1 from written) with sign | content
    · exact dash c sign
    · exact (each item listed).printable c content

theorem writeItems_cons {item : List Char × Node} {items : List (List Char × Node)} :
    writeItems column (item :: items) ++ rest =
      List.replicate column ' ' ++ '-' :: ' ' :: (item.1 ++ (writeItems column items ++ rest)) := by
  simp [writeItems]

theorem length_writeItems_cons {item : List Char × Node} {items : List (List Char × Node)} :
    (writeItems column (item :: items)).length =
      column + item.1.length + 2 + (writeItems column items).length := by
  simp [writeItems]
  omega

theorem readSequence_next {hosted : Bool} {q r : Position} {nodes : List Node}
    (item : readBlock (column + 1) false limit ⟨some (column + 1), text⟩ = some (node, q))
    (skipped : q.skip false = ⟨some column, '-' :: ' ' :: rest⟩)
    (items : readSequence column hosted limit (' ' :: rest) = some (nodes, r)) :
    readSequence column hosted (limit + 1) text = some (node :: nodes, r) := by
  have inside : (Position.mk (some column) ('-' :: ' ' :: rest)).isEnd = false := isEnd_opens .item
  have dash : atSign '-' ('-' :: ' ' :: rest) = true := rfl
  rw [readSequence, item]
  simp [skipped, inside, dash, items]

/-- After the last item the line of another part follows, or nothing. -/
theorem readSequence_last {q : Position}
    (item : readBlock (column + 1) false limit ⟨some (column + 1), text⟩ = some (node, q))
    (skipped : q.skip false = (lineStart rest).skip false) (after : EndsEntry column rest) :
    readSequence column true (limit + 1) text = some ([node], (lineStart rest).skip false) := by
  rw [readSequence, item]
  dsimp only [Option.bind_eq_bind, Option.bind_some]
  rw [skipped]
  cases after with
  | nothing => rfl
  | outside before opens =>
    rw [skip_opens opens]
    simp [isEnd_opens opens, before, Nat.ne_of_lt before]
  | @key c rest lower =>
    have opens : Opens (c :: rest) := .key lower
    have other : c ≠ '-' := ne_of_isLower lower rfl
    have unsigned : atSign '-' (c :: rest) = false := by simp [atSign, other]
    rw [skip_opens opens]
    simp [isEnd_opens opens, unsigned]

theorem readSequence_items {item : List Char × Node} {items : List (List Char × Node)}
    (each : ∀ i ∈ item :: items, IsItem column i) (after : EndsEntry column rest)
    (enough : 2 * (writeItems column (item :: items)).length ≤ limit) :
    readSequence column true limit (' ' :: (item.1 ++ (writeItems column items ++ rest))) =
      some ((item :: items).map Prod.snd, (lineStart rest).skip false) := by
  induction items generalizing item limit with
  | nil =>
    rw [length_writeItems_cons] at enough
    obtain ⟨n, rfl⟩ : ∃ n, limit = n + 1 := ⟨limit - 1, by omega⟩
    obtain ⟨q, read, skipped⟩ := (each item List.mem_cons_self).reads rest n after.ends (by
      rw [List.length_cons]
      omega)
    exact readSequence_last read skipped after
  | cons next items ih =>
    rw [length_writeItems_cons] at enough
    obtain ⟨n, rfl⟩ : ∃ n, limit = n + 1 := ⟨limit - 1, by omega⟩
    have follows : Ends (column + 1) (writeItems column (next :: items) ++ rest) := by
      rw [writeItems_cons]
      exact .line (Nat.lt_succ_self column) .item
    obtain ⟨q, read, skipped⟩ := (each item List.mem_cons_self).reads _ n follows (by
      rw [List.length_cons]
      omega)
    rw [writeItems_cons, skip_opens .item] at skipped
    have fits : 2 * (writeItems column (next :: items)).length ≤ n := by omega
    exact readSequence_next read skipped (ih (List.forall_mem_cons.mp each).2 fits)

theorem reads_items {item : List Char × Node} {items : List (List Char × Node)}
    (each : ∀ i ∈ item :: items, IsItem column i) :
    Reads (column + 1) true none ('\n' :: writeItems column (item :: items))
      (.sequence ((item :: items).map Prod.snd)) (EndsEntry column) := by
  intro rest limit after enough
  rw [List.length_cons] at enough
  obtain ⟨n, rfl⟩ : ∃ n, limit = n + 1 := ⟨limit - 1, by omega⟩
  have skipped : (within ('\n' :: writeItems column (item :: items) ++ rest)).skip false =
      ⟨some column, '-' :: ' ' :: (item.1 ++ (writeItems column items ++ rest))⟩ := by
    rw [List.cons_append, skip_within_break, writeItems_cons, skip_opens .item]
  refine ⟨_, ?_, skip_skip after.ends⟩
  rw [← within, readBlock_hosted skipped, readSequence_items each after (by omega)]
  rfl

/-! ### Mappings -/

/-- A word that is written as it is for a key. -/
structure IsKey (key : List Char) : Prop where
  written : Plain.Written key
  lower : key.head?.any Char.isLower = true
  short : byteSize key ≤ 1024

instance (key : List Char) : Decidable (IsKey key) :=
  decidable_of_iff (Plain.Written key ∧ key.head?.any Char.isLower = true ∧ byteSize key ≤ 1024)
    ⟨fun ⟨written, lower, short⟩ => ⟨written, lower, short⟩,
      fun ⟨written, lower, short⟩ => ⟨written, lower, short⟩⟩

theorem IsKey.exists_cons {key : List Char} (isKey : IsKey key) :
    ∃ c more, key = c :: more ∧ c.isLower = true := by
  have lower := isKey.lower
  cases key with
  | nil => cases lower
  | cons c more => exact ⟨c, more, rfl, lower⟩

theorem IsKey.length_pos {key : List Char} (isKey : IsKey key) : 1 ≤ key.length := by
  obtain ⟨c, more, some, _⟩ := isKey.exists_cons
  simp [some]

/-- What is written of an entry of a mapping, and the node of its value. -/
structure Field where
  key : List Char
  value : List Char
  node : Node

namespace Field

def written (f : Field) : List Char := f.key ++ ':' :: f.value

def entry (f : Field) : Node × Node := (.scalar true (String.ofList f.key), f.node)

/-- What is read as an entry of a mapping at the column. -/
structure Valid (column : Nat) (f : Field) : Prop where
  key : IsKey f.key
  printable : ∀ c ∈ f.value, isPrintable c = true
  gap : ∀ rest, atGap (f.value ++ rest) = true
  value : Reads (column + 1) true none f.value f.node (EndsEntry column)

end Field

variable {f g : Field} {fields : List Field}

theorem readKey_written (key : IsKey f.key) (gap : ∀ rest, atGap (f.value ++ rest) = true) :
    readKey floor (limit + 2) (f.written ++ rest) =
      some (.scalar true (String.ofList f.key), f.value ++ rest) := by
  have colon : atSign ':' (':' :: (f.value ++ rest)) = true := by simp [atSign, gap]
  have line : Plain.readLine false false (f.key ++ ':' :: (f.value ++ rest)) =
      some (f.key, ':' :: (f.value ++ rest)) :=
    key.written.readLine (by simp [Plain.endsBefore, colon])
  have read : readInline false floor (limit + 2) (f.written ++ rest) =
      some (.scalar true (String.ofList f.key), within (':' :: (f.value ++ rest))) := by
    rw [Field.written, List.append_assoc, List.cons_append, readInline_plain key.written.begins,
      Plain.read, line]
    rfl
  have skipped : (within (':' :: (f.value ++ rest))).skip false =
      ⟨none, ':' :: (f.value ++ rest)⟩ := skip_at (by decide)
  have span : isKeySpan (f.written ++ rest) (':' :: (f.value ++ rest)) = true := by
    have whole : f.key.any isBreak = false := by
      rw [List.any_eq_false]
      exact fun c member => by simp [key.written.unbroken c member]
    simp [isKeySpan, Field.written, key.short, whole]
  rw [readKey, read]
  simp [skipped, colon, span]

theorem heads_written (key : IsKey f.key) : Scalar.Heads (f.written ++ rest) := by
  obtain ⟨c, more, some, lower⟩ := key.exists_cons
  rw [Field.written, some]
  exact Scalar.heads_of_ne (isVisible_of_isLower lower) (ne_of_isLower lower rfl)
    (ne_of_isLower lower rfl)

theorem readEntry_written {q : Position} (key : IsKey f.key)
    (gap : ∀ rest, atGap (f.value ++ rest) = true)
    (value : readBlock (column + 1) true (limit + 2) (within (f.value ++ rest)) = some (f.node, q)) :
    readEntry column (limit + 3) (f.written ++ rest) = some (f.entry, q) := by
  have unmarked : atSign '?' (f.written ++ rest) = false := by
    have heads : Scalar.Heads (f.written ++ rest) := heads_written key
    have alone := heads.unsigned '?' (.inr rfl) []
    rwa [List.append_nil] at alone
  rw [readEntry, unmarked]
  simp [readKey_written key gap, value, Field.entry]

/-- What is written of the entries of a mapping whose keys begin at the column. -/
def writeFields (column : Nat) (fields : List Field) : List Char :=
  fields.flatMap fun f => List.replicate column ' ' ++ f.written

theorem writeFields_cons :
    writeFields column (f :: fields) ++ rest =
      List.replicate column ' ' ++ (f.written ++ (writeFields column fields ++ rest)) := by
  simp [writeFields]

theorem length_written_append :
    (f.written ++ writeFields column fields).length =
      f.key.length + 1 + f.value.length + (writeFields column fields).length := by
  simp [Field.written]
  omega

theorem length_writeFields_cons :
    (writeFields column (f :: fields)).length =
      column + (f.written ++ writeFields column fields).length := by
  simp [writeFields]

theorem Field.Valid.isPrintable_written (valid : f.Valid column) :
    ∀ c ∈ f.written, isPrintable c = true := by
  intro c member
  rcases List.mem_append.mp member with name | value
  · exact valid.key.written.printable c name
  · rcases List.mem_cons.mp value with rfl | value
    · decide
    · exact valid.printable c value

theorem isPrintable_writeFields (each : ∀ f ∈ fields, f.Valid column) :
    ∀ c ∈ writeFields column fields, isPrintable c = true := by
  intro c member
  obtain ⟨f, listed, written⟩ := List.mem_flatMap.mp member
  rcases List.mem_append.mp written with margin | written
  · exact isPrintable_replicate c margin
  · exact (each f listed).isPrintable_written c written

theorem opens_written (key : IsKey f.key) : Opens (f.written ++ rest) := by
  obtain ⟨c, more, some, lower⟩ := key.exists_cons
  rw [Field.written, some]
  exact .key lower

theorem endsEntry_written (key : IsKey f.key) :
    EndsEntry column (List.replicate column ' ' ++ (f.written ++ rest)) := by
  obtain ⟨c, more, some, lower⟩ := key.exists_cons
  rw [Field.written, some]
  exact .key lower

theorem readMapping_next {entry : Node × Node} {entries : List (Node × Node)} {q r : Position}
    (first : readEntry column limit text = some (entry, q)) (opens : Opens rest)
    (skipped : q.skip false = ⟨some column, rest⟩)
    (others : readMapping column limit rest = some (entries, r)) :
    readMapping column (limit + 1) text = some (entry :: entries, r) := by
  rw [readMapping, first]
  simp [skipped, isEnd_opens opens, others]

theorem readMapping_last {entry : Node × Node} {q : Position}
    (first : readEntry column limit text = some (entry, q))
    (skipped : q.skip false = (lineStart rest).skip false) (after : Ends column rest) :
    readMapping column (limit + 1) text = some ([entry], (lineStart rest).skip false) := by
  rw [readMapping, first]
  dsimp only [Option.bind_eq_bind, Option.bind_some]
  rw [skipped]
  cases after with
  | nothing => rfl
  | line before opens =>
    rw [skip_opens opens]
    simp [isEnd_opens opens, before]

/-- An entry takes four calls at most, and its key and its colon make up for them. -/
theorem readMapping_fields (each : ∀ g ∈ f :: fields, g.Valid column) (after : Ends column rest)
    (enough : 2 * (f.written ++ writeFields column fields).length ≤ limit) :
    readMapping column limit (f.written ++ (writeFields column fields ++ rest)) =
      some ((f :: fields).map Field.entry, (lineStart rest).skip false) := by
  induction fields generalizing f limit with
  | nil =>
    obtain ⟨key, _, gap, value⟩ := each f List.mem_cons_self
    have long := key.length_pos
    rw [length_written_append] at enough
    obtain ⟨n, rfl⟩ : ∃ n, limit = n + 4 := ⟨limit - 4, by omega⟩
    obtain ⟨q, read, skipped⟩ :=
      value rest (n + 2) (after.endsEntry (Nat.le_refl column)) (by omega)
    exact readMapping_last (readEntry_written key gap read) skipped after
  | cons next fields ih =>
    obtain ⟨⟨key, _, gap, value⟩, others⟩ := List.forall_mem_cons.mp each
    have nextKey := (others next List.mem_cons_self).key
    have long := key.length_pos
    rw [length_written_append] at enough
    obtain ⟨n, rfl⟩ : ∃ n, limit = n + 4 := ⟨limit - 4, by omega⟩
    have follows : EndsEntry column (writeFields column (next :: fields) ++ rest) := by
      rw [writeFields_cons]
      exact endsEntry_written nextKey
    obtain ⟨q, read, skipped⟩ := value _ (n + 2) follows (by omega)
    rw [writeFields_cons, skip_opens (opens_written nextKey)] at skipped
    have fits : 2 * (next.written ++ writeFields column fields).length ≤ n + 3 := by
      rw [length_writeFields_cons] at enough
      omega
    exact readMapping_next (readEntry_written key gap read) (opens_written nextKey) skipped
      (ih others fits)

theorem readContent_mapping (mapping : atMapping floor limit text = true) :
    readContent floor (limit + 1) (some column) text =
      (readMapping column limit text).map fun (entries, q) => (.mapping entries, q) := by
  unfold readContent
  split
  · rename_i bar
    rw [atMapping, readKey, readInline_bar] at mapping
    cases mapping
  · rename_i none
    cases none
  · rename_i same
    cases same
    rw [if_pos mapping]

/-- Where the column is known, what begins with a key is a mapping. -/
theorem readContent_fields (each : ∀ g ∈ f :: fields, g.Valid column) (after : Ends column rest)
    (enough : 2 * (f.written ++ writeFields column fields).length ≤ limit) :
    readContent floor (limit + 1) (some column) (f.written ++ (writeFields column fields ++ rest)) =
      some (.mapping ((f :: fields).map Field.entry), (lineStart rest).skip false) := by
  obtain ⟨key, _, gap, _⟩ := each f List.mem_cons_self
  have entries := readMapping_fields each after enough
  have long := key.length_pos
  rw [length_written_append] at enough
  obtain ⟨n, rfl⟩ : ∃ n, limit = n + 2 := ⟨limit - 2, by omega⟩
  have mapping : atMapping floor (n + 2) (f.written ++ (writeFields column fields ++ rest)) = true := by
    rw [atMapping, readKey_written key gap]
    exact Bool.or_true _
  rw [readContent_mapping mapping, entries]
  rfl

/-- A mapping that is an item of a sequence begins behind the dash. -/
theorem isItem_fields (each : ∀ g ∈ f :: fields, g.Valid (column + 2)) :
    IsItem column (f.written ++ writeFields (column + 2) fields,
      .mapping ((f :: fields).map Field.entry)) := by
  obtain ⟨valid, others⟩ := List.forall_mem_cons.mp each
  refine ⟨List.forall_mem_append.mpr
    ⟨valid.isPrintable_written, isPrintable_writeFields others⟩, fun rest limit after enough => ?_⟩
  have heads : Scalar.Heads (f.written ++ writeFields (column + 2) fields) :=
    heads_written valid.key
  rw [List.length_cons] at enough
  dsimp only at enough ⊢
  obtain ⟨n, rfl⟩ : ∃ n, limit = n + 1 + 1 := ⟨limit - 2, by omega⟩
  have fits : 2 * (f.written ++ writeFields (column + 2) fields).length ≤ n := by omega
  refine ⟨_, ?_, skip_skip after⟩
  rw [readBlock_space heads (by simp), List.append_assoc]
  exact readContent_fields each (after.mono (Nat.le_succ _)) fits

/-! ### Documents -/

theorem start?_of_opens (opens : Opens text) : start? text = some ⟨some 0, text⟩ := by
  have inside : (text.isEmpty || (Position.mk (some 0) text).isMarker) = false := isEnd_opens opens
  obtain ⟨nonempty, unmarked⟩ := Bool.or_eq_false_iff.mp inside
  obtain ⟨c, rest, rfl, visible⟩ := opens.exists_cons
  rw [start?, skip_at visible]
  simp [unmarked]

theorem readBlock_document (each : ∀ g ∈ f :: fields, g.Valid 0)
    (enough : 2 * (f.written ++ writeFields 0 fields).length ≤ limit) :
    readBlock 0 false (limit + 2) ⟨some 0, f.written ++ writeFields 0 fields⟩ =
      some (.mapping ((f :: fields).map Field.entry), ⟨some 0, []⟩) := by
  have key := (each f List.mem_cons_self).key
  have opens : Opens (f.written ++ writeFields 0 fields) := opens_written key
  have heads : Scalar.Heads (f.written ++ writeFields 0 fields) := heads_written key
  have unsigned := heads.unsigned '-' (.inl rfl) []
  have content : readContent 0 (limit + 1) (some 0) (f.written ++ (writeFields 0 fields ++ [])) =
      some (.mapping ((f :: fields).map Field.entry), (lineStart []).skip false) :=
    readContent_fields each .nothing enough
  obtain ⟨c, rest, some, visible⟩ := opens.exists_cons
  rw [List.append_nil] at unsigned content
  rw [readBlock_at _ (isEnd_opens opens) unsigned (Nat.zero_le 0), content]
  · rfl
  · rw [some]
    exact skip_at visible

/-- The limit on calls is four times the length of the text. -/
theorem read?_writeFields (each : ∀ g ∈ f :: fields, g.Valid 0) :
    read? (String.ofList (writeFields 0 (f :: fields))) =
      some (.mapping ((f :: fields).map Field.entry)) := by
  have printable := isPrintable_writeFields each
  have readable : (writeFields 0 (f :: fields)).all isReadable = true := by
    rw [List.all_eq_true]
    exact fun c member => isReadable_of_isPrintable (printable c member)
  have first : writeFields 0 (f :: fields) = f.written ++ writeFields 0 fields := by
    simp [writeFields]
  have opens : Opens (f.written ++ writeFields 0 fields) :=
    opens_written (each f List.mem_cons_self).key
  rw [read?, String.toList_ofList, if_pos readable, unifyBreaks_eq printable, first]
  dsimp only
  rw [start?_of_opens opens]
  dsimp only [Option.bind_eq_bind, Option.bind_some]
  rw [readBlock_document each (by omega)]
  rfl

end Determinize.Yaml.Document
