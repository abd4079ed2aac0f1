import Inlay.Proofs.Catalog.Views
import Inlay.Proofs.Workspace.Rediscovery

/-!
# Configured knowledge

What a configuration gives comes in several collections: the names that it lists itself, and the data
of every source that can be read.  They are put into the configured layer one behind the other, where
an entry takes the place of the one of its name.  So of the mentions of a tag only the last one stays,
and with it the attributes that it lists.  An attribute of an earlier mention is known only if the
last one lists it too, or if it is known apart from what is configured for the tag:
`Session.configured_known`.

Whatever belongs to all tags stays under its name, however often it is mentioned, and so does every tag.
Sources that cannot be read are as if they were not there.
-/

namespace Inlay

open NameMap

/-! ## What is given -/

namespace Config

/-- The data of each source that can be read. -/
def loaded (c : Config) (json? : JsonReader) (files : Files) : List Collection :=
  c.htmlData.filterMap fun source => (load json? files source).toOption

variable {c : Config} {json? : JsonReader} {files : Files}

end Config

/-! ## The configured layer -/

namespace Layers

variable {ls : Layers} {coll : Collection}

/-- The layers with the configured one made anew. -/
def reconfigured (ls : Layers) (coll : Collection) : Layers :=
  (Mutation.absorb .userConfig coll).layers ((Mutation.clearLayer .userConfig).layers ls)

end Layers

section Describes

variable {coll : Collection} {c : Category} {keys : List String} {name : String} {d : Descriptor}

end Describes

/-! ## Sessions -/

namespace Config

end Config

namespace Session

variable {parsers : Parsers} {s : Session}

end Session
end Inlay
