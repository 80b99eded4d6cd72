import AstPromotion.Compilation

/-! # Files in memory

A directory with files below it, for compiling without a disk. Paths are taken
relative to the directory; nothing is known of what lies above it. A path that
could name no file at all is refused before it is followed.
-/

namespace AstPromotion

/-- Files by the names on the way down to them. -/
structure FileTree where
  files : List (List String × ByteArray)

namespace FileTree

/-- Whether a component of a path leads nowhere. -/
def isIdle (component : String) : Bool :=
  component == "" || component == "."

/-- Bytes that the name of one file or directory may have. -/
def nameLimit : Nat := 255

/-- Bytes that a whole path may have. -/
def pathLimit : Nat := 4095

/-- The files of a list of paths with contents. -/
def ofPaths (files : List (String × ByteArray)) : FileTree :=
  ⟨files.map fun (path, content) => ((path.splitOn "/").filter (!isIdle ·), content)⟩

def file? (tree : FileTree) (names : List String) : Option ByteArray :=
  tree.files.lookup names

/-- Whether some file lies below the directory of these names. -/
def isDirectory (tree : FileTree) (names : List String) : Bool :=
  tree.files.any fun (file, _) => names.isPrefixOf file

/-- Follows the components of a path from a directory, or from a directory above the tree. A file
must come last, and a name is looked at only once the directory that would hold it is reached. -/
def follow (tree : FileTree) (directory : Option (List String)) :
    List String → Except ReadFailure ByteArray
  | [] => .error .isDirectory
  | component :: rest =>
    if isIdle component then tree.follow directory rest
    else if component == ".." then
      tree.follow (directory.bind fun names => if names.isEmpty then none else names.dropLast) rest
    else if nameLimit < component.utf8ByteSize then .error .nameTooLong
    else
      match directory with
      | none => .error .missing
      | some names =>
        let names := names ++ [component]
        match tree.file? names with
        | some content => if rest.isEmpty then .ok content else .error .notDirectory
        | none => if tree.isDirectory names then tree.follow (some names) rest else .error .missing

/-- The content of the file at a path. -/
def read (tree : FileTree) (path : String) : Except ReadFailure ByteArray :=
  if path.contains '\x00' then .error .nulInName
  else if path.isEmpty then .error .missing
  else if pathLimit < path.utf8ByteSize then .error .nameTooLong
  else tree.follow (if path.startsWith "/" then none else some []) (path.splitOn "/")

end FileTree

end AstPromotion
