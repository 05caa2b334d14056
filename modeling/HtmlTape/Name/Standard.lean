/-!
# Standard names

The names of HTML elements and attributes that every document knows, and the category of each
element. A name is handled as a code; the codes of the standard names are their places in the
two tables, and the codes after them are free for names of a document's own.
-/

namespace HtmlTape

/-- An element name, as a code. -/
structure ElementName where
  code : Nat
deriving DecidableEq, Inhabited

structure AttributeName where
  code : Nat
deriving DecidableEq, Inhabited

/-- Element names are ordered by their codes. -/
instance : LT ElementName := ⟨fun a b => a.code < b.code⟩

instance (a b : ElementName) : Decidable (a < b) :=
  inferInstanceAs (Decidable (a.code < b.code))

/-- How an element is written. -/
structure ElementKind where
  /-- It has neither children nor an end tag. -/
  isVoid : Bool
  /-- It is laid out inside of a line. -/
  isPhrasing : Bool
  /-- Its text is written without escaping. -/
  isRawText : Bool
deriving DecidableEq, Inhabited

namespace ElementKind

/-- A block with children and an end tag. -/
def normal : ElementKind := ⟨false, false, false⟩

def void : ElementKind := ⟨true, false, false⟩

/-- Inline content with children and an end tag. -/
def phrasing : ElementKind := ⟨false, true, false⟩

def voidPhrasing : ElementKind := ⟨true, true, false⟩

def rawText : ElementKind := ⟨false, false, true⟩

end ElementKind

/-- The standard elements with their kinds, by code. -/
def standardElements : Array (String × ElementKind) :=
  #[("a", .phrasing), ("abbr", .phrasing), ("address", .normal), ("area", .void),
   ("article", .normal), ("aside", .normal), ("audio", .normal), ("b", .phrasing), ("base", .void),
   ("bdi", .normal), ("bdo", .normal), ("blockquote", .normal), ("body", .normal),
   ("br", .voidPhrasing), ("button", .phrasing), ("canvas", .normal), ("caption", .normal),
   ("cite", .normal), ("code", .phrasing), ("col", .void), ("colgroup", .normal), ("data", .normal),
   ("datalist", .normal), ("dd", .normal), ("del", .normal), ("details", .normal), ("dfn", .normal),
   ("dialog", .normal), ("div", .normal), ("dl", .normal), ("dt", .normal), ("em", .phrasing),
   ("embed", .void), ("fieldset", .normal), ("figcaption", .normal), ("figure", .normal),
   ("footer", .normal), ("form", .normal), ("h1", .normal), ("h2", .normal), ("h3", .normal),
   ("h4", .normal), ("h5", .normal), ("h6", .normal), ("head", .normal), ("header", .normal),
   ("hgroup", .normal), ("hr", .void), ("html", .normal), ("i", .normal), ("iframe", .normal),
   ("img", .voidPhrasing), ("input", .voidPhrasing), ("ins", .normal), ("kbd", .phrasing),
   ("label", .phrasing), ("legend", .normal), ("li", .normal), ("link", .void), ("main", .normal),
   ("map", .normal), ("mark", .normal), ("menu", .normal), ("meta", .void), ("meter", .normal),
   ("nav", .normal), ("noscript", .normal), ("object", .normal), ("ol", .normal),
   ("optgroup", .normal), ("option", .normal), ("output", .normal), ("p", .normal),
   ("picture", .normal), ("pre", .normal), ("progress", .phrasing), ("q", .normal), ("rp", .normal),
   ("rt", .normal), ("ruby", .normal), ("s", .normal), ("samp", .phrasing), ("script", .rawText),
   ("search", .normal), ("section", .normal), ("select", .phrasing), ("slot", .normal),
   ("small", .phrasing), ("source", .void), ("span", .phrasing), ("strong", .phrasing),
   ("style", .rawText), ("sub", .phrasing), ("summary", .normal), ("sup", .phrasing),
   ("svg", .phrasing), ("table", .normal), ("tbody", .normal), ("td", .normal),
   ("template", .phrasing), ("textarea", .phrasing), ("tfoot", .normal), ("th", .normal),
   ("thead", .normal), ("time", .normal), ("title", .normal), ("tr", .normal), ("track", .void),
   ("u", .normal), ("ul", .normal), ("var", .normal), ("video", .normal), ("wbr", .void)]

def standardAttributes : Array String :=
  #["accept", "accesskey", "action", "alt", "aria-hidden", "aria-label", "as", "async",
   "autocomplete", "autofocus", "autoplay", "charset", "checked", "cite", "class", "cols",
   "colspan", "content", "contenteditable", "controls", "crossorigin", "data", "datetime",
   "decoding", "default", "defer", "dir", "disabled", "download", "draggable", "enctype", "for",
   "form", "formaction", "headers", "height", "hidden", "high", "href", "hreflang", "http-equiv",
   "id", "inert", "inputmode", "integrity", "is", "itemprop", "kind", "label", "lang", "list",
   "loading", "loop", "low", "max", "maxlength", "media", "method", "min", "minlength", "multiple",
   "muted", "name", "nonce", "novalidate", "open", "optimum", "pattern", "ping", "placeholder",
   "popover", "poster", "preload", "readonly", "referrerpolicy", "rel", "required", "reversed",
   "role", "rows", "rowspan", "sandbox", "scope", "selected", "shape", "size", "sizes", "slot",
   "span", "spellcheck", "src", "srcdoc", "srclang", "srcset", "start", "step", "style", "tabindex",
   "target", "title", "translate", "type", "usemap", "value", "width", "wrap"]

/-- The kind of an element. Elements without a standard name are normal. -/
def ElementName.kind (name : ElementName) : ElementKind :=
  match standardElements[name.code]? with
  | some (_, kind) => kind
  | none => .normal

def standardElement? (name : String) : Option ElementName :=
  (standardElements.findIdx? (·.1 == name)).map ElementName.mk

def standardAttribute? (name : String) : Option AttributeName :=
  (standardAttributes.findIdx? (· == name)).map AttributeName.mk

def AttributeName.className : AttributeName := ⟨14⟩

def AttributeName.id : AttributeName := ⟨41⟩

end HtmlTape
