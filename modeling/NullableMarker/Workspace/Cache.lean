import NullableMarker.Workspace.FileSystem

/-!
# The cache of reference tables

Tables built from files are kept, under what tells the files apart: their names, when they were
written and how long they are. The tables used last are kept.
-/

namespace NullableMarker

/-- What tells whether a file has changed. -/
structure FileStamp where
  path : String
  stamp : Stamp
  size : Nat
  deriving Repr, DecidableEq

/-- What a table of references was built from. -/
structure ReferenceKey where
  files : List FileStamp
  defined : List String
  deriving Repr, DecidableEq

/-- Tables of references, the one used last first. -/
abbrev ReferenceCache := List (ReferenceKey × SymbolTable)

namespace ReferenceCache

/-- How many tables are kept. -/
def capacity : Nat := 32

/-- The table under a key. -/
def find? (cache : ReferenceCache) (key : ReferenceKey) : Option SymbolTable := cache.lookup key

/-- Puts a table in front and drops what is over. -/
def use (cache : ReferenceCache) (key : ReferenceKey) (table : SymbolTable) : ReferenceCache :=
  ((key, table) :: cache.filter fun e => !(e.1 == key)).take capacity

end ReferenceCache

end NullableMarker
