import ViewCompiler.Bytes

/-!
The files of a project.
-/

namespace ViewCompiler

/-- A file is a template or a plain source text. -/
inductive FileKind where
  | template | source
deriving DecidableEq, Repr, Inhabited

namespace FileKind

/-- Files whose name ends in `.view` are templates. -/
def ofPath (path : Bytes) : FileKind := if path.endsWith ".view" then template else source

end FileKind

structure SourceFile where
  path : Bytes
  content : Bytes
  kind : FileKind
deriving DecidableEq, Repr, Inhabited

end ViewCompiler
