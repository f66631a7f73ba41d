import GrammarKit.Error.Fault

/-!
A tree of files, and how a path leads to one of them. A path is a row of names with slashes between
them; it starts at the root if a slash comes first and in the working directory if not. An empty
name and a single dot stay where they are, two dots go up, at the root they stay, and any other name
goes down. Only from a directory is there a way on, so a slash after the name of a file leads
nowhere.
-/
namespace GrammarKit

abbrev Place := List Text

structure File where
  place : Place
  content : Text
deriving DecidableEq

structure FileTree where
  files : List File
  /-- The directories that are there whether or not a file is in them. -/
  directories : List Place
  /-- Where a path starts that does not start at the root. -/
  working : Place
deriving DecidableEq

namespace FileTree

inductive Entry where
  | file (content : Text)
  | directory
deriving DecidableEq

def nameLimit : Nat := 255

def pathLimit : Nat := 4095

def byteSize (t : Text) : Nat := t.toString.utf8ByteSize

def namesOf (path : Text) : List Text := path.splitOn (unit '/')

def stays (name : Text) : Bool := name.isEmpty || name = Text.ofString "."

/-- What stands at a place. A directory is also there if something is in it. -/
def entry? (tree : FileTree) (place : Place) : Option Entry :=
  match tree.files.find? fun f => f.place = place with
  | some f => some (.file f.content)
  | none =>
    if place.isEmpty || tree.files.any (place.isPrefixOf ·.place) ||
        tree.directories.any place.isPrefixOf then some .directory
    else none

def follow (tree : FileTree) (path : Text) (place : Place) : List Text → Except Fault Entry
  | [] =>
    match tree.entry? place with
    | some entry => .ok entry
    | none => .error (.noSuchFile path)
  | name :: rest =>
    match tree.entry? place with
    | none => .error (.noSuchFile path)
    | some (.file _) => .error (.notDirectory path)
    | some .directory =>
      if stays name then tree.follow path place rest
      else if name = Text.ofString ".." then tree.follow path place.dropLast rest
      else if nameLimit < byteSize name then .error (.nameTooLong path)
      else tree.follow path (place ++ [name]) rest

def origin (tree : FileTree) (path : Text) : Place :=
  if path.head? = some (unit '/') then [] else tree.working

def read (tree : FileTree) (path : Text) : Except Fault Text :=
  let path := path.repair
  if path.isEmpty then .error (.noSuchFile path)
  else if pathLimit < byteSize path then .error (.nameTooLong path)
  else do
    match ← tree.follow path (tree.origin path) (namesOf path) with
    | .file content => .ok content
    | .directory => .error .isDirectory

def systemDirectories : List Place :=
  ["bin", "boot", "dev", "etc", "home", "lib", "media", "mnt", "opt", "proc", "root", "run", "sbin",
    "srv", "sys", "tmp", "usr", "var"].map fun name => [Text.ofString name]

def nullFile : File := ⟨[Text.ofString "dev", Text.ofString "null"], []⟩

/-- A temporary directory. It has no name that a path could spell. -/
def temporary : Place := [Text.ofString "tmp", []]

/-- The tree of a system whose working directory is a temporary one with the given files, each with
a path that goes down only. -/
def ofFiles (files : List (Text × Text)) : FileTree where
  files := nullFile :: files.map fun (path, content) =>
    ⟨temporary ++ (namesOf path).filter (!stays ·), content⟩
  directories := temporary :: systemDirectories
  working := temporary

end FileTree

end GrammarKit
