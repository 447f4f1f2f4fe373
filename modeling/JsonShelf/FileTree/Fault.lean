/-!
# Faults of file operations

Why a file operation is refused. Most of these are known to every program by their numbers and have
no wording of their own.
-/

namespace JsonShelf

/-- Why a file operation is refused. -/
inductive FileFault
  /-- A name on the way, or the last one, is not there. -/
  | notFound
  /-- What should be made is there already. -/
  | alreadyExists
  /-- The way leads through a file. -/
  | notDirectory
  /-- A directory is there where a file is asked for. -/
  | isDirectory
  /-- A name, or a path as a whole, is longer than file systems allow. -/
  | nameTooLong
  /-- A name holds the character NUL, which no name can hold. -/
  | nulInName
deriving DecidableEq

end JsonShelf
