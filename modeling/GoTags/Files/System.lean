import GoTags.Files.Lookup

/-!
# The file system

Stored files together with the directory that relative paths start from. The
directory may be missing: then only absolute paths lead anywhere.
-/

namespace GoTags

/-- A file system as a process sees it. -/
structure FileSystem where
  store : Store
  workDir : Option Place

namespace FileSystem

section Defs

/-- The path that spells out a place. -/
def pathOf (p : Place) : Path :=
  Bytes.slash :: Bytes.joinWith Bytes.slash p

/-- The path of the working directory. -/
def workPath? (fs : FileSystem) : Option Path :=
  fs.workDir.map pathOf

/-- The spot that a path leads to. -/
def spot (fs : FileSystem) (purpose : Lookup.Purpose) (p : Path) :
    Except FileFault Lookup.Spot :=
  fs.store.spot fs.workDir purpose p

/-- The place and the entry that a path leads to. -/
def find (fs : FileSystem) (p : Path) : Except FileFault (Place × Entry) :=
  match fs.spot .find p with
  | .ok (.taken place entry) => .ok (place, entry)
  | .ok (.free _) => .error .notFound
  | .error fault => .error fault

/-- The content of a file. -/
def read (fs : FileSystem) (p : Path) : Except FileFault Bytes :=
  match fs.find p with
  | .ok (_, .file content) => .ok content
  | .ok (_, _) => .error .isADirectory
  | .error fault => .error fault

/-- The content of a file as text. -/
def readText (fs : FileSystem) (p : Path) : Except FileFault String :=
  match fs.read p with
  | .ok content =>
      match Utf8.decode? content with
      | some text => .ok text
      | none => .error .notText
  | .error fault => .error fault

/-- The place of the directory that a path leads to. -/
def dirAt? (fs : FileSystem) (p : Path) : Option Place :=
  match fs.find p with
  | .ok (place, .dir) => some place
  | _ => none

/-- Whether a path leads to a directory. -/
def isDir (fs : FileSystem) (p : Path) : Bool :=
  (fs.dirAt? p).isSome

/-- Whether a path leads anywhere. -/
def pathExists (fs : FileSystem) (p : Path) : Bool :=
  (fs.find p).isOk

/-- The file system with an entry put in at a place. -/
def put (fs : FileSystem) (p : Place) (e : Entry) : FileSystem :=
  { fs with store := fs.store.put p e }

/-- The file system with the directories that the steps of a path lead through. -/
def makeDirsFrom (fs : FileSystem) : Path → List Step → Except FileFault FileSystem
  | _, [] => .ok fs
  | front, step :: rest =>
      match step with
      | .here => makeDirsFrom fs (front.join [Bytes.dot]) rest
      | .slash => makeDirsFrom fs front rest
      | .up => makeDirsFrom fs (front.join [Bytes.dot, Bytes.dot]) rest
      | .name n =>
          let path := front.join n
          match fs.spot .entry path with
          | .ok (.free place) => makeDirsFrom (fs.put place .dir) path rest
          | .ok (.taken _ _) =>
              if fs.isDir path then makeDirsFrom fs path rest else .error .alreadyExists
          | .error fault => .error fault

/-- The file system with a directory at a path, and those on the way to it. -/
def makeDirs (fs : FileSystem) (p : Path) : Except FileFault FileSystem :=
  makeDirsFrom fs (if p.isAbsolute then [Bytes.slash] else []) p.steps

/-- The file system with a link at a path where nothing stands. -/
def makeLink (fs : FileSystem) (p target : Path) : Except FileFault FileSystem :=
  match fs.spot .make p with
  | .ok (.free place) => .ok (fs.put place (.link target))
  | .ok (.taken _ _) => .error .alreadyExists
  | .error fault => .error fault

/-- The file system without what stands at a path. A link is removed, not what
it leads to. -/
def remove (fs : FileSystem) (p : Path) : Except FileFault FileSystem :=
  match fs.spot .entry p with
  | .ok (.taken place _) => .ok { fs with store := fs.store.remove place }
  | .ok (.free _) => .error .notFound
  | .error fault => .error fault

/-- The entries below a place, with their paths relative to it. -/
def listing (fs : FileSystem) (dir : Place) : List (Path × Entry) :=
  fs.store.entries.filterMap fun x =>
    if dir.isPrefixOf x.1 ∧ dir ≠ x.1 then
      some (Bytes.joinWith Bytes.slash (x.1.drop dir.length), x.2)
    else none

/-- The files of a file system that another one lacks or holds with a different
content. -/
def changedFiles (old new : FileSystem) : List (Place × Bytes) :=
  new.store.entries.filterMap fun x =>
    match x.2 with
    | .file content => if old.store.at? x.1 = some x.2 then none else some (x.1, content)
    | _ => none

end Defs

end FileSystem
end GoTags
