import Determinize.Description.Yaml
import Determinize.Proofs.Yaml.Block
import Determinize.Proofs.Yaml.Printable

/-!
Reading undoes writing. A description is written as the entries of a mapping (`fields`), with every list
as a sequence and every transition as a mapping of its own; each entry is read back by what is known of
blocks, and the nodes that were read are those of the description again.
-/

namespace Determinize

open Yaml Document

variable {column : Nat} {key text : String} {items : List (List Char × Node)} {m : MoveDescription}
  {d : Description}

/-! ### What is written -/

def textItem (column : Nat) (text : String) : List Char × Node :=
  (Scalar.write (column + 2) text.toList, Scalar.node text.toList)

def textField (column : Nat) (key text : String) : Field where
  key := key.toList
  value := ' ' :: (textItem column text).1
  node := (textItem column text).2

def listField (column : Nat) (key : String) (items : List (List Char × Node)) : Field where
  key := key.toList
  value := match items with
    | [] => [' ', '[', ']', '\n']
    | item :: items => '\n' :: writeItems column (item :: items)
  node := .sequence (items.map Prod.snd)

def flagField (flag : Bool) : Field where
  key := "deterministic".toList
  value := ' ' :: (if flag then "true" else "false").toList ++ ['\n']
  node := .scalar true (if flag then "true" else "false")

namespace MoveDescription

def fields (m : MoveDescription) : List Field :=
  [textField 2 "from" m.source, textField 2 "on" m.symbol,
    listField 2 "to" (m.destinations.map (textItem 2))]

/-- What is written of a transition behind its dash. -/
def item (m : MoveDescription) : List Char × Node :=
  ((textField 2 "from" m.source).written ++ writeFields 2 m.fields.tail,
    .mapping (m.fields.map Field.entry))

end MoveDescription

namespace Description

def fields (d : Description) : List Field :=
  [textField 0 "initial" d.initial, listField 0 "finals" (d.finals.map (textItem 0)),
    listField 0 "states" (d.states.map (textItem 0)),
    listField 0 "alphabet" (d.alphabet.map (textItem 0)),
    listField 0 "transitions" (d.moves.map MoveDescription.item), flagField d.deterministic]

theorem written_textField : (textField column key text).written = writeText column key text := by
  simp [Field.written, textField, textItem, writeText]

theorem written_texts {texts : List String} :
    (listField column key (texts.map (textItem column))).written = writeTexts column key texts := by
  cases texts with
  | nil => simp [Field.written, listField, writeTexts]
  | cons text texts =>
    simp [Field.written, listField, writeTexts, writeItems, textItem, List.flatMap_map]

theorem written_item : '-' :: ' ' :: m.item.1 = writeMove m := by
  have source : (textField 2 "from" m.source).written = writeText 2 "from" m.source :=
    written_textField
  have symbol : (textField 2 "on" m.symbol).written = writeText 2 "on" m.symbol := written_textField
  have destinations : (listField 2 "to" (m.destinations.map (textItem 2))).written =
      writeTexts 2 "to" m.destinations := written_texts
  simp [MoveDescription.item, MoveDescription.fields, writeFields, source, symbol, destinations,
    writeMove]

theorem written_moves {moves : List MoveDescription} :
    (listField 0 "transitions" (moves.map MoveDescription.item)).written = writeMoves moves := by
  unfold writeMoves
  generalize "transitions" = key
  cases moves with
  | nil => simp [Field.written, listField]
  | cons m moves => simp [Field.written, listField, writeItems, written_item, List.flatMap_map]

theorem written_flagField {flag : Bool} : (flagField flag).written = writeFlag flag := by
  cases flag <;> rfl

theorem toYaml_eq : d.toYaml = String.ofList (writeFields 0 d.fields) := by
  simp [toYaml, fields, writeFields, written_textField, written_texts, written_moves,
    written_flagField]

end Description

/-! ### The entries are read -/

theorem isKey_names : ∀ name ∈ ["initial", "finals", "states", "alphabet", "transitions",
    "deterministic", "from", "on", "to"], IsKey name.toList := by decide

theorem isItem_textItem : IsItem column (textItem column text) where
  printable := isPrintable_write
  reads := reads_write (Nat.le_add_left 1 column) fun _ same => by
    cases same
    omega

theorem isItem_texts {texts : List String} : ∀ i ∈ texts.map (textItem column), IsItem column i := by
  intro i member
  obtain ⟨text, _, rfl⟩ := List.mem_map.mp member
  exact isItem_textItem

theorem valid_textField (isKey : IsKey key.toList) : (textField column key text).Valid column where
  key := isKey
  printable := List.forall_mem_cons.mpr ⟨by decide, isPrintable_write⟩
  gap _ := rfl
  value := (reads_write (Nat.le_add_left 1 column) (by simp)).mono fun _ => EndsEntry.ends

theorem valid_listField (isKey : IsKey key.toList) (each : ∀ i ∈ items, IsItem column i) :
    (listField column key items).Valid column := by
  cases items with
  | nil =>
    have brackets : ∀ c ∈ [' ', '[', ']', '\n'], isPrintable c = true := List.all_eq_true.mp rfl
    exact ⟨isKey, brackets, fun _ => rfl, reads_noItems⟩
  | cons item items =>
    exact ⟨isKey, List.forall_mem_cons.mpr ⟨by decide, isPrintable_writeItems each⟩, fun _ => rfl,
      reads_items each⟩

theorem valid_flagField {flag : Bool} : (flagField flag).Valid 0 := by
  have written : Plain.Written (if flag then "true" else "false").toList := by
    cases flag <;> decide
  have reads : Reads 1 true none (flagField flag).value _ (Ends 1) := reads_written written
  rw [String.ofList_toList] at reads
  refine ⟨isKey_names _ (by simp), ?_, fun _ => rfl, reads.mono fun _ => EndsEntry.ends⟩
  cases flag <;> exact List.all_eq_true.mp rfl

theorem MoveDescription.valid_fields : ∀ f ∈ m.fields, f.Valid 2 := by
  intro f member
  simp only [fields, List.mem_cons, List.not_mem_nil, or_false] at member
  rcases member with rfl | rfl | rfl
  · exact valid_textField (isKey_names _ (by simp))
  · exact valid_textField (isKey_names _ (by simp))
  · exact valid_listField (isKey_names _ (by simp)) isItem_texts

theorem MoveDescription.isItem_item : IsItem 0 m.item :=
  isItem_fields valid_fields

namespace Description

theorem valid_fields : ∀ f ∈ d.fields, f.Valid 0 := by
  intro f member
  simp only [fields, List.mem_cons, List.not_mem_nil, or_false] at member
  rcases member with rfl | rfl | rfl | rfl | rfl | rfl
  · exact valid_textField (isKey_names _ (by simp))
  · exact valid_listField (isKey_names _ (by simp)) isItem_texts
  · exact valid_listField (isKey_names _ (by simp)) isItem_texts
  · exact valid_listField (isKey_names _ (by simp)) isItem_texts
  · refine valid_listField (isKey_names _ (by simp)) fun i member => ?_
    obtain ⟨m, _, rfl⟩ := List.mem_map.mp member
    exact MoveDescription.isItem_item
  · exact valid_flagField

end Description

/-! ### The nodes of a description -/

theorem mapM_map_eq_some {α β : Type} {write : α → β} {read : β → Option α} {l : List α}
    (back : ∀ a, read (write a) = some a) : (l.map write).mapM read = some l := by
  have undo : read ∘ write = pure := funext back
  rw [List.mapM_map, undo, List.mapM_pure, List.map_id']
  rfl

theorem text?_textItem : (textItem column text).2.text? = some text := by
  rw [textItem, Scalar.node, Node.text?, String.ofList_toList]

theorem text?_textField : (textField column key text).node.text? = some text :=
  @text?_textItem column text

theorem texts?_listField {texts : List String} :
    (listField column key (texts.map (textItem column))).node.texts? = some texts := by
  show ((texts.map (textItem column)).map Prod.snd).mapM Node.text? = some texts
  rw [List.map_map]
  exact mapM_map_eq_some fun _ => text?_textItem

theorem bool?_flagField {flag : Bool} : (flagField flag).node.bool? = some flag := by
  cases flag <;> rfl

theorem name_textField : String.ofList (textField column key text).key = key := String.ofList_toList

theorem name_listField : String.ofList (listField column key items).key = key := String.ofList_toList

theorem name_flagField {flag : Bool} : String.ofList (flagField flag).key = "deterministic" :=
  String.ofList_toList

theorem fields?_mapping {fields : List Field} :
    (Node.mapping (fields.map Field.entry)).fields? =
      some (fields.map fun f => (String.ofList f.key, f.node)) := by
  rw [Node.fields?, List.mapM_map]
  exact List.mapM_pure

theorem MoveDescription.ofNode?_item : ofNode? m.item.2 = some m := by
  rw [ofNode?, item, fields?_mapping]
  simp only [fields, List.map_cons, List.map_nil, name_textField, name_listField]
  simp [required?, optional?, field?, text?_textField, texts?_listField]

namespace Description

theorem items?_moves {moves : List MoveDescription} :
    (listField 0 key (moves.map MoveDescription.item)).node.items?.bind
      (fun items => items.mapM MoveDescription.ofNode?) = some moves := by
  show ((moves.map MoveDescription.item).map Prod.snd).mapM MoveDescription.ofNode? = some moves
  rw [List.map_map]
  exact mapM_map_eq_some fun _ => MoveDescription.ofNode?_item

theorem ofNode?_fields : ofNode? (.mapping (d.fields.map Field.entry)) = some d := by
  rw [ofNode?, fields?_mapping]
  simp only [fields, List.map_cons, List.map_nil, name_textField, name_listField, name_flagField]
  simp [required?, optional?, field?, text?_textField, texts?_listField, items?_moves,
    bool?_flagField]

theorem read?_toYaml : Document.read? d.toYaml = some (.mapping (d.fields.map Field.entry)) := by
  rw [toYaml_eq, fields, read?_writeFields valid_fields]

/-- The text of a description is read as the description, whatever texts it holds. -/
theorem ofYaml?_toYaml (d : Description) : ofYaml? d.toYaml = some d := by
  rw [ofYaml?, read?_toYaml]
  exact ofNode?_fields

end Description

end Determinize
