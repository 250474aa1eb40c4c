import NullableMarker.Annotate.Header
import NullableMarker.Decision
import NullableMarker.Grammar.Unit

/-!
# Annotating a source

A source is read, its declarations are judged against the types known, the types of the optional ones
are marked, and the file opts into nullable annotations.
-/

namespace NullableMarker

/-- A source without the mark of byte order that it may start with. -/
def withoutOrderMark (source : String) : String :=
  match source.toList with
  | '\ufeff' :: rest => String.ofList rest
  | _ => source

/-- The tree of a source that may start with a mark of byte order. -/
def loadUnit (source : String) (defined : List String) : Except SourceError Tree :=
  parseUnit (withoutOrderMark source) defined

namespace Environment

/-- The environment of a source file. -/
def ofUnit (references : SymbolTable) (root : Tree) : Except BadReference Environment :=
  ofTree references "source" root

/-- The tree with the declarations marked that are decided to be optional, and with the nullable
header. -/
def annotatedBy (env : Environment) (decisions : List Decision) : Tree :=
  (env.root.mark (verdictsOf decisions)).addHeader

/-- The tree with its optional declarations marked and with the nullable header. -/
def annotated (env : Environment) (p : Profile) : Except BadReference Tree :=
  (env.decisions p).map env.annotatedBy

end Environment

/-- Why a source cannot be annotated. -/
inductive AnnotateError where
  /-- The source cannot be read. -/
  | source (e : SourceError)
  /-- A type derives from what cannot be looked up. -/
  | reference (e : BadReference)

/-- The annotated text of a source. -/
def annotate (references : SymbolTable) (defined : List String) (p : Profile) (source : String) :
    Except AnnotateError String := do
  let root ← (loadUnit source defined).mapError .source
  let env ← (Environment.ofUnit references root).mapError .reference
  return (← (env.annotated p).mapError .reference).fullText

end NullableMarker
