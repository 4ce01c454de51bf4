import CountedHeap.Fault
import CountedHeap.Text.Octets

/-!
A working directory as far as reading files goes: files under relative paths, and the directories
that these paths imply. Paths are walked part by part; a part that is empty or a single dot stays
where it is, and two dots go back up. The working directory lies below the root directory, which
holds the null device, a file that is always empty. Of the directories between the two no content is
known. -/
namespace CountedHeap

/-- A file with its path from the directory and its octets. -/
structure StoredFile where
  path : List String
  octets : List UInt8
deriving DecidableEq, Repr

/-- Files, the names of directories that hold none of them, and how many directories up the root
directory is. -/
structure Directory where
  files : List StoredFile
  folders : List String
  depth : Nat
deriving DecidableEq, Repr

namespace Directory

def parts (path : String) : List String := path.splitOn "/"

/-- A working directory is made in the directory of temporary files, which the root directory
holds. -/
def workingDepth : Nat := 2

def ofFiles (files : List (String × List UInt8)) : Directory :=
  ⟨files.map fun (path, octets) => ⟨parts path, octets⟩, [], workingDepth⟩

/-- The root directory. -/
def root : Directory :=
  ⟨[⟨["dev", "null"], []⟩], ["bin", "etc", "home", "proc", "root", "sys", "tmp", "usr", "var"], 0⟩

/-- The directory that holds a directory; the root directory holds itself. -/
def parent (d : Directory) : Directory :=
  if d.depth ≤ 1 then root else ⟨[], [], d.depth - 1⟩

@[simp] theorem depth_parent (d : Directory) : d.parent.depth = d.depth - 1 := by
  unfold parent
  split
  · simp only [root]; omega
  · rfl

theorem parent_of_depth_le_one {d : Directory} (h : d.depth ≤ 1) : d.parent = root := by
  simp [parent, h]

/-- The greatest size of one part of a path. -/
def maxPartSize : Nat := 255

/-- Paths are smaller than this. -/
def pathSizeBound : Nat := 4096

def size (path : String) : Nat := Text.size path.toList

def file? (d : Directory) (path : List String) : Option (List UInt8) :=
  (d.files.find? fun f => f.path == path).map (·.octets)

/-- The directory itself is always there. -/
def isDirectory (d : Directory) (path : List String) : Bool :=
  path.isEmpty || d.folders.any (path == [·]) ||
    d.files.any fun f => path.isPrefixOf f.path && f.path != path

/-- Why there is nothing under the name that a part of a path gives. -/
def absence (part : String) : TransferFault :=
  if maxPartSize < size part then .nameTooLong else .noSuchFile

/-- Walks on from a directory. -/
def walk (d : Directory) (here : List String) :
    List String → Except TransferFault (List UInt8)
  | [] => .error .isDirectory
  | part :: rest =>
    if part = "" ∨ part = "." then walk d here rest
    else if part = ".." then
      if here.isEmpty then walk d.parent [] rest else walk d here.dropLast rest
    else
      let there := here ++ [part]
      match d.file? there with
      | some octets => if rest.isEmpty then .ok octets else .error .notDirectory
      | none => if d.isDirectory there then walk d there rest else .error (absence part)

/-- Enough double dots lead to the root directory. -/
theorem walk_replicate_up {d : Directory} {steps : Nat} (h : d.depth ≤ steps + 1)
    (rest : List String) :
    walk d [] (List.replicate (steps + 1) ".." ++ rest) = walk root [] rest := by
  induction steps generalizing d with
  | zero => simp [walk, parent_of_depth_le_one h]
  | succ steps ih =>
    have hparent : d.parent.depth ≤ steps + 1 := by rw [depth_parent]; omega
    rw [List.replicate_succ, List.cons_append, ← ih hparent]
    simp [walk]

/-- Reads the file at a path. -/
def read (d : Directory) (path : String) : Except TransferFault (List UInt8) :=
  if path.contains '\x00' then .error .nulInName
  else if path.isEmpty then .error .noSuchFile
  else if pathSizeBound ≤ size path then .error .nameTooLong
  else if path.startsWith "/" then walk root [] (parts path)
  else walk d [] (parts path)

end Directory

end CountedHeap
