import Inlay.Catalog.Descriptor

/-!
# Attributes of the standard elements

The attributes that the standard gives to its elements, with the form of their
values, in the order in which they are offered.
-/

namespace Inlay
namespace Standard

/-- The form of the values of an attribute. -/
inductive Form where
  | text
  | number
  | flag
  | oneOf (texts : List String)
  deriving DecidableEq, Inhabited

def Form.type : Form → StaticType
  | .text => .string
  | .number => .number
  | .flag => .boolean
  | .oneOf texts => Descriptor.textsType texts

/-- Names with the form of their values. -/
abbrev Table := List (String × Form)

def directions : Form := .oneOf ["ltr", "rtl", "auto"]

def trueOrFalse : Form := .oneOf ["true", "false"]

def targets : Form := .oneOf ["_self", "_blank", "_parent", "_top"]

/-- Attributes of every element. -/
def everywhere : Table :=
  [("accesskey", .text),
   ("autocapitalize", .oneOf ["off", "none", "on", "sentences", "words", "characters"]),
   ("autofocus", .flag), ("class", .text),
   ("contenteditable", .oneOf ["true", "false", "plaintext-only", ""]), ("dir", directions),
   ("draggable", trueOrFalse),
   ("enterkeyhint", .oneOf ["enter", "done", "go", "next", "previous", "search", "send"]),
   ("exportparts", .text), ("hidden", .flag), ("id", .text), ("inert", .flag),
   ("inputmode", .oneOf ["none", "text", "decimal", "numeric", "tel", "search", "email", "url"]),
   ("is", .text), ("lang", .text), ("nonce", .text), ("part", .text),
   ("popover", .oneOf ["auto", "manual", ""]), ("role", .text), ("slot", .text),
   ("spellcheck", trueOrFalse), ("style", .text), ("tabindex", .number), ("title", .text),
   ("translate", .oneOf ["yes", "no"]), ("aria-label", .text), ("aria-labelledby", .text),
   ("aria-describedby", .text), ("aria-hidden", trueOrFalse), ("aria-expanded", trueOrFalse),
   ("aria-controls", .text), ("aria-live", .oneOf ["off", "polite", "assertive"]),
   ("aria-disabled", trueOrFalse), ("aria-selected", trueOrFalse),
   ("aria-checked", .oneOf ["true", "false", "mixed"]),
   ("aria-pressed", .oneOf ["true", "false", "mixed"]),
   ("aria-current", .oneOf ["page", "step", "location", "date", "time", "true", "false"])]

def anchor : Table :=
  [("download", .text), ("href", .text), ("hreflang", .text), ("ping", .text),
   ("referrerpolicy", .text), ("rel", .text), ("target", targets), ("type", .text)]

def button : Table :=
  [("disabled", .flag), ("form", .text), ("formaction", .text), ("formnovalidate", .flag),
   ("formtarget", targets), ("name", .text), ("type", .oneOf ["submit", "reset", "button"]),
   ("value", .text)]

def input : Table :=
  [("accept", .text), ("alt", .text), ("autocomplete", .text), ("checked", .flag),
   ("disabled", .flag), ("form", .text), ("height", .number), ("list", .text), ("max", .text),
   ("maxlength", .number), ("min", .text), ("minlength", .number), ("multiple", .flag),
   ("name", .text), ("pattern", .text), ("placeholder", .text), ("readonly", .flag),
   ("required", .flag), ("size", .number), ("src", .text), ("step", .text),
   ("type", .oneOf
      ["button", "checkbox", "color", "date", "datetime-local", "email", "file", "hidden",
       "image", "month", "number", "password", "radio", "range", "reset", "search", "submit",
       "tel", "text", "time", "url", "week"]), ("value", .text), ("width", .number)]

def textarea : Table :=
  [("autocomplete", .text), ("cols", .number), ("disabled", .flag), ("form", .text),
   ("maxlength", .number), ("minlength", .number), ("name", .text), ("placeholder", .text),
   ("readonly", .flag), ("required", .flag), ("rows", .number),
   ("wrap", .oneOf ["hard", "soft", "off"])]

def select : Table :=
  [("autocomplete", .text), ("disabled", .flag), ("form", .text), ("multiple", .flag),
   ("name", .text), ("required", .flag), ("size", .number)]

def option : Table :=
  [("disabled", .flag), ("label", .text), ("selected", .flag), ("value", .text)]

def form : Table :=
  [("accept-charset", .text), ("action", .text), ("autocomplete", .oneOf ["on", "off"]),
   ("enctype", .text), ("method", .oneOf ["get", "post", "dialog"]), ("name", .text),
   ("novalidate", .flag), ("target", targets)]

def label : Table :=
  [("for", .text), ("form", .text)]

def image : Table :=
  [("alt", .text), ("crossorigin", .oneOf ["anonymous", "use-credentials", ""]),
   ("decoding", .oneOf ["sync", "async", "auto"]), ("height", .number),
   ("loading", .oneOf ["eager", "lazy"]), ("sizes", .text), ("src", .text), ("srcset", .text),
   ("usemap", .text), ("width", .number)]

def iframe : Table :=
  [("allow", .text), ("allowfullscreen", .flag), ("height", .number),
   ("loading", .oneOf ["eager", "lazy"]), ("name", .text), ("sandbox", .text), ("src", .text),
   ("srcdoc", .text), ("width", .number)]

def script : Table :=
  [("async", .flag), ("crossorigin", .text), ("defer", .flag), ("integrity", .text),
   ("nomodule", .flag), ("src", .text), ("type", .text)]

def embed : Table :=
  [("height", .number), ("src", .text), ("type", .text), ("width", .number)]

def object : Table :=
  [("data", .text), ("form", .text), ("height", .number), ("name", .text), ("type", .text),
   ("width", .number)]

def media : Table :=
  [("autoplay", .flag), ("controls", .flag), ("crossorigin", .text), ("loop", .flag),
   ("muted", .flag), ("preload", .oneOf ["none", "metadata", "auto", ""]), ("src", .text)]

def video : Table :=
  [("height", .number), ("playsinline", .flag), ("poster", .text), ("width", .number)]

def source : Table :=
  [("media", .text), ("sizes", .text), ("src", .text), ("srcset", .text), ("type", .text)]

def link : Table :=
  [("as", .text), ("crossorigin", .text), ("href", .text), ("media", .text), ("rel", .text),
   ("type", .text)]

def cell : Table :=
  [("colspan", .number), ("headers", .text), ("rowspan", .number)]

def details : Table :=
  [("open", .flag), ("name", .text)]

def dialog : Table :=
  [("open", .flag)]

def orderedList : Table :=
  [("reversed", .flag), ("start", .number), ("type", .oneOf ["1", "a", "A", "i", "I"])]

def progress : Table :=
  [("max", .number), ("value", .number)]

def meter : Table :=
  [("high", .number), ("low", .number), ("max", .number), ("min", .number), ("optimum", .number),
   ("value", .number)]

def fieldset : Table :=
  [("disabled", .flag), ("form", .text), ("name", .text)]

def slot : Table :=
  [("name", .text)]

def time : Table :=
  [("datetime", .text)]

def canvas : Table :=
  [("height", .number), ("width", .number)]

/-- Properties of the base of all elements. -/
def base : Table :=
  [("accessKey", .text), ("autofocus", .flag), ("className", .text), ("contentEditable", .text),
   ("dir", .text), ("draggable", .flag), ("hidden", .flag), ("id", .text), ("inert", .flag),
   ("innerHTML", .text), ("innerText", .text), ("lang", .text), ("outerHTML", .text),
   ("slot", .text), ("spellcheck", .flag), ("tabIndex", .number), ("textContent", .text),
   ("title", .text), ("translate", .flag)]

/-- The elements that have attributes of their own. -/
def elements : List (String × Table) :=
  [("a", anchor), ("audio", media), ("button", button), ("canvas", canvas), ("details", details),
   ("dialog", dialog), ("embed", embed), ("fieldset", fieldset), ("form", form),
   ("iframe", iframe), ("img", image), ("input", input), ("label", label), ("link", link),
   ("meter", meter), ("object", object), ("ol", orderedList), ("option", option),
   ("progress", progress), ("script", script), ("select", select), ("slot", slot),
   ("source", source), ("td", cell), ("textarea", textarea), ("th", cell), ("time", time),
   ("video", video)]

/-- The elements that have none. -/
def plainElements : List String :=
  ["abbr", "address", "article", "aside", "b", "base", "bdi", "bdo", "blockquote", "body", "br",
   "caption", "cite", "code", "col", "colgroup", "data", "datalist", "dd", "del", "dfn", "div",
   "dl", "dt", "em", "figcaption", "figure", "footer", "h1", "h2", "h3", "h4", "h5", "h6", "head",
   "header", "hgroup", "hr", "html", "i", "ins", "kbd", "legend", "li", "main", "map", "mark",
   "menu", "meta", "nav", "noscript", "optgroup", "output", "p", "picture", "pre", "q", "rp",
   "rt", "ruby", "s", "samp", "search", "section", "small", "span", "strong", "style", "sub",
   "summary", "sup", "table", "tbody", "template", "tfoot", "thead", "title", "tr", "track", "u",
   "ul", "var", "wbr", "svg", "math"]

/-- Properties that reflect an attribute under another name. -/
def propertyNames : List (String × String) :=
  [("accesskey", "accessKey"), ("accept-charset", "acceptCharset"),
   ("allowfullscreen", "allowFullscreen"), ("class", "className"), ("colspan", "colSpan"),
   ("contenteditable", "contentEditable"), ("crossorigin", "crossOrigin"),
   ("datetime", "dateTime"), ("enterkeyhint", "enterKeyHint"), ("for", "htmlFor"),
   ("formaction", "formAction"), ("formnovalidate", "formNoValidate"),
   ("formtarget", "formTarget"), ("inputmode", "inputMode"), ("maxlength", "maxLength"),
   ("minlength", "minLength"), ("nomodule", "noModule"), ("novalidate", "noValidate"),
   ("playsinline", "playsInline"), ("readonly", "readOnly"), ("referrerpolicy", "referrerPolicy"),
   ("rowspan", "rowSpan"), ("tabindex", "tabIndex"), ("usemap", "useMap")]

/-- Attributes that no property reflects. -/
def unreflected : List String := ["style", "exportparts", "is", "part", "form", "list"]

/-- The property that reflects an attribute, if there is one. -/
def property? (attributeName : String) : Option String :=
  if isStartOf "aria-" attributeName || unreflected.contains attributeName then none
  else some ((propertyNames.lookup attributeName).getD attributeName)

end Standard
end Inlay
