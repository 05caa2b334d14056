import HtmlTape.Proofs.Recorder.Shows

/-!
# Texts one after another

Where the texts of items lie in the pool when the items are recorded from left to right: each text
right after the one before it.  So the ranges of the pool are determined by the texts alone
(`Item.placeAll`).
-/

namespace HtmlTape

mutual

def Item.text : Item String → String
  | .mark m => m.value?.getD ""
  | .element _ items => Item.textAll items
  | .fragment items => Item.textAll items

def Item.textAll : List (Item String) → String
  | [] => ""
  | item :: rest => item.text ++ Item.textAll rest

end

mutual

/-- The item with its texts one after another from a place of the pool on. -/
def Item.place (offset : Nat) : Item String → Item Quote
  | .mark m => .mark (m.at offset)
  | .element name items => .element name (Item.placeAll offset items)
  | .fragment items => .fragment (Item.placeAll offset items)

def Item.placeAll (offset : Nat) : List (Item String) → List (Item Quote)
  | [] => []
  | item :: rest => item.place offset :: Item.placeAll (offset + item.text.utf8ByteSize) rest

end

theorem Item.textAll_append (as bs : List (Item String)) :
    Item.textAll (as ++ bs) = Item.textAll as ++ Item.textAll bs := by
  induction as with
  | nil => exact String.empty_append.symm
  | cons a as ih => rw [List.cons_append, textAll, ih, textAll, String.append_assoc]

theorem Item.placeAll_append (offset : Nat) (as bs : List (Item String)) :
    Item.placeAll offset (as ++ bs) = Item.placeAll offset as ++
      Item.placeAll (offset + (Item.textAll as).utf8ByteSize) bs := by
  induction as generalizing offset with
  | nil => rfl
  | cons a as ih =>
    rw [List.cons_append, placeAll, ih, placeAll, textAll, String.utf8ByteSize_append,
      Nat.add_assoc]
    rfl

theorem Mark.map_at (offset : Nat) (m : Mark String) : (m.at offset).map Quote.text = m := by
  cases m <;> rfl

theorem Item.mapAll_placeAll (items : List (Item String)) : ∀ offset : Nat,
    Item.mapAll Quote.text (Item.placeAll offset items) = items := by
  induction items using Item.forest_induction with
  | nil => exact fun _ => rfl
  | mark m rest ih =>
    intro offset
    rw [placeAll, place, mapAll, Item.map, Mark.map_at, ih]
  | element name items rest ih₁ ih₂ =>
    intro offset
    rw [placeAll, place, mapAll, Item.map, ih₁, ih₂]
  | fragment items rest ih₁ ih₂ =>
    intro offset
    rw [placeAll, place, mapAll, Item.map, ih₁, ih₂]

theorem Item.length_placeAll (offset : Nat) (items : List (Item String)) :
    (Item.placeAll offset items).length = items.length := by
  rw [← List.length_map (Item.map Quote.text), ← mapAll_eq_map, mapAll_placeAll]

end HtmlTape
