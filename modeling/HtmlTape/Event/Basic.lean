import HtmlTape.Name.Standard
import HtmlTape.Text.Quoted

/-!
# Events

A document read aloud: its start, then the start tag, the attributes, the children and the end
tag of each element in turn, and its end. Events carry the texts themselves and no offsets.
-/

namespace HtmlTape

/-- Something that is met when a document is read from start to end. -/
inductive Event where
  | documentStart
  | doctype
  | startTag (name : String) (kind : ElementKind)
  | attributeName (name : String)
  | firstValue (value : String)
  | nextValue (value : String)
  | valueEnd
  | startTagEnd (hasChildren : Bool)
  | voidEnd
  | text (value : String)
  | raw (value : String)
  | endTag (name : String) (kind : ElementKind)
  | documentEnd
deriving DecidableEq

namespace Event

def line : Event → String
  | documentStart => "document_start"
  | doctype => "doctype"
  | startTag name _ => "start_tag " ++ name
  | attributeName name => "attribute " ++ name
  | firstValue value => "value_first " ++ Text.quoted value.toList
  | nextValue value => "value_next " ++ Text.quoted value.toList
  | valueEnd => "value_end"
  | startTagEnd hasChildren => "start_tag_end " ++ if hasChildren then "children" else "empty"
  | voidEnd => "self_closing_end"
  | text value => "text " ++ Text.quoted value.toList
  | raw value => "raw " ++ Text.quoted value.toList
  | endTag name _ => "end_tag " ++ name
  | documentEnd => "document_end"

def ofValues : List String → List Event
  | [] => []
  | value :: values => firstValue value :: values.map nextValue ++ [valueEnd]

end Event

end HtmlTape
