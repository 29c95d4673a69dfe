/-!
# Files by path

A file store holds files and directories by their path from a base directory, and is asked for
the text of a file as an operating system would be: `.` and `..` are understood, every step of a
path but the last must be a directory, names and paths have a greatest length, and a text must be
valid UTF-8.

Nothing is known of what lies outside the base directory; it counts as an empty directory.
-/

namespace WhileLang

/-- Why the text of a file cannot be read. -/
inductive FileError where
  | notFound
  | isDirectory
  | notDirectory
  | denied
  | nameTooLong
  /-- A path has a character of code zero, which ends paths for the operating system. -/
  | invalidPath
  | invalidText
deriving DecidableEq, Repr

def FileError.message : FileError → String
  | notFound => "No such file or directory (os error 2)"
  | isDirectory => "Is a directory (os error 21)"
  | notDirectory => "Not a directory (os error 20)"
  | denied => "Permission denied (os error 13)"
  | nameTooLong => "File name too long (os error 36)"
  | invalidPath => "file name contained an unexpected NUL byte"
  | invalidText => "stream did not contain valid UTF-8"

instance : ToString FileError := ⟨FileError.message⟩

inductive FileEntry where
  | file (bytes : ByteArray)
  | directory

/-- Files and directories, each at the list of names that leads to it from the base. -/
structure FileStore where
  entries : List (List String × FileEntry)

namespace FileStore

/-- The names that a path consists of. -/
def splitPath (path : String) : List String :=
  (path.toList.splitOn '/').map String.ofList

/-- Where one more name of a path leads from a place in the base directory or below. -/
def enter (place : List String) (name : String) : List String :=
  if name = "" ∨ name = "." then place
  else if name = ".." then place.dropLast
  else place ++ [name]

/-- An entry at the end of a path that starts from a place, and directories on the way to it. -/
def entriesAlong (place : List String) (entry : FileEntry) :
    List String → List (List String × FileEntry)
  | [] => [(place, entry)]
  | name :: path => entriesAlong (enter place name) entry path ++ [(place, .directory)]

/-- A store with entries at the given paths, which are made one after the other together with the
directories that they lead through. -/
def ofEntries (entries : List (String × FileEntry)) : FileStore :=
  ⟨entries.foldl (fun made entry => entriesAlong [] entry.2 (splitPath entry.1) ++ made) []⟩

def entry? (s : FileStore) (place : List String) : Option FileEntry :=
  if place.isEmpty then some .directory
  else (s.entries.find? (fun entry => entry.1 == place)).map Prod.snd

/-- A place reached on the way along a path. -/
inductive Place where
  /-- In the base directory or below, at the end of these names. -/
  | inside (names : List String)
  | outside

def at? (s : FileStore) : Place → Option FileEntry
  | .inside names => s.entry? names
  | .outside => some .directory

/-- The place one step further along a path. -/
def step (place : Place) (name : String) : Option Place :=
  match place with
  | .outside => if name ∈ ["", ".", ".."] then some .outside else none
  | .inside names =>
    if names = [] ∧ name = ".." then some .outside else some (.inside (enter names name))

def maxNameSize : Nat := 255

def maxPathSize : Nat := 4095

/-- What is at the end of a path that starts from a place. -/
def walk (s : FileStore) (place : Place) : List String → Except FileError FileEntry
  | [] =>
    match s.at? place with
    | some entry => .ok entry
    | none => .error .notFound
  | name :: path =>
    match s.at? place with
    | none => .error .notFound
    | some (.file _) => .error .notDirectory
    | some .directory =>
      if maxNameSize < name.utf8ByteSize then .error .nameTooLong
      else
        match step place name with
        | none => .error .notFound
        | some next => walk s next path

/-- What is at the end of a path. Whether there can be such a path is seen before anything is looked
up. -/
def find (s : FileStore) (path : String) : Except FileError FileEntry :=
  if path.contains '\x00' then .error .invalidPath
  else if maxPathSize < path.utf8ByteSize then .error .nameTooLong
  else
    match splitPath path with
    | [""] => .error .notFound
    | "" :: names => s.walk .outside names
    | names => s.walk (.inside []) names

/-- The text of the file at the end of a path. -/
def readText (s : FileStore) (path : String) : Except FileError String := do
  match ← s.find path with
  | .directory => .error .isDirectory
  | .file bytes =>
    match String.fromUTF8? bytes with
    | some text => .ok text
    | none => .error .invalidText

end FileStore

end WhileLang
