import OpenServer.Http.Basic

/-!
This module contains what the server uses of Qt and of the file system. `Qt` has the functions on
strings and paths, `Disk` what the file system answers at one moment. Everything on a `Disk` is asked
by absolute path: a relative path reaches it through `absolutePath` and the working directory.
-/

structure Qt where
  fromStdString : Bytes → QString
  fromNativeSeparators : QString → QString
  isAbsolutePath : QString → Bool
  absolutePath : (cwd path : QString) → QString
  absolutePath_eq : ∀ cwd cwd' path, isAbsolutePath path → absolutePath cwd path = absolutePath cwd' path

-- `size k` is what the k-th call of `size()` answers, `read pos n` what a read of at most `n` bytes
-- at `pos` delivers: fewer bytes, or none at all, when it falls short or fails.
structure QFile where
  isOpen : Bool
  size : Nat → Int
  seek : Int → Bool
  read : (pos n : Int) → Bytes
  read_le : ∀ pos n, (read pos n).length ≤ n.toNat

structure QFileInfo where
  absoluteFilePath : QString
  fileName : QString
  isDir : Bool
  deriving DecidableEq, Repr

-- `setCurrent path` is the working directory after a successful `QDir::setCurrent`.
structure Disk where
  pathExists : QString → Bool
  isFile : QString → Bool
  mimeTypeForFile : QString → Bytes
  file : QString → QFile
  setCurrent : QString → Option QString
  entryInfoList : QString → List QFileInfo

namespace QFile

-- `file_io.seek(pos); file_io.read(data, n)` on a file whose `open` may have failed.
def readAt (f : QFile) (pos n : Int) : Bytes :=
  if f.isOpen then
    f.read (if f.seek pos then pos else 0) n
  else
    []

structure Holds (f : QFile) (b : Bytes) : Prop where
  isOpen : f.isOpen
  size : ∀ k, f.size k = b.length
  seek : ∀ pos, 0 ≤ pos → pos ≤ b.length → f.seek pos
  read : ∀ pos n, f.read pos n = (b.drop pos.toNat).take n.toNat

def ofContent (b : Bytes) : QFile where
  isOpen := true
  size _ := b.length
  seek _ := true
  read pos n := (b.drop pos.toNat).take n.toNat
  read_le := by
    intro pos n
    simp only [List.length_take, List.length_drop]
    omega

theorem ofContent_holds (b : Bytes) : (ofContent b).Holds b := by
  constructor <;> simp [ofContent]

end QFile

-- Paths of Unix, without the clean-up of `.` and `..`.
def Qt.unix : Qt where
  fromStdString s := s
  fromNativeSeparators path := path
  isAbsolutePath path := path.head? == some 47
  absolutePath cwd path := if path.head? == some 47 then path else cwd ++ ascii "/" ++ path
  absolutePath_eq := by
    intro cwd cwd' path h
    simp [h]

def Disk.ofTree (files : List (QString × Bytes)) (dirs : List (QString × List QFileInfo)) : Disk where
  pathExists path := (files.lookup path).isSome || (dirs.lookup path).isSome
  isFile path := (files.lookup path).isSome
  mimeTypeForFile _ := ascii "text/plain"
  file path := .ofContent ((files.lookup path).getD [])
  setCurrent path := if (dirs.lookup path).isSome then some path else none
  entryInfoList path := (dirs.lookup path).getD []

def toHtmlEscaped (s : QString) : QString :=
  s.flatMap fun c =>
    if c = 60 then ascii "&lt;"
    else if c = 62 then ascii "&gt;"
    else if c = 38 then ascii "&amp;"
    else if c = 34 then ascii "&quot;"
    else [c]
