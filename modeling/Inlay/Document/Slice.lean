import Inlay.Document.Basic

/-!
# Parts of documents

`partsAt` lists what a range of a document is made of, and `slice` makes a
document of that range: the body of a style element becomes a stylesheet of its
own.  Slices keep the coordinates of the host file, so their positions need no
further correction.
-/

namespace Inlay
namespace Document

/-- A part inside a range of the host file.  Text is cut to the range; a hole is
never cut. -/
def clip? (host : Span) : Part → Option Part
  | .text t =>
    (t.span.overlap? host).bind fun clipped =>
      ((clipped.unshift t.span.start).slice? t.text).map fun piece =>
        .text { text := piece, span := clipped }
  | .hole h => if h.span.overlaps host then some (.hole h) else none

/-- The parts that share a byte with a range of the document. -/
def partsAt (d : Document) (r : Span) : List Part :=
  d.parts.filterMap (clip? (d.spanToHost r))

def slice (d : Document) (r : Span) (dialect : Dialect) : Document :=
  { fileName := d.fileName, dialect := dialect, location := d.spanToHost r,
    parts := d.partsAt r }

end Document
end Inlay
