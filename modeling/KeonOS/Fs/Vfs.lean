import Mathlib.Tactic

/-!
# Nodes of the virtual file system

`vfs.cpp` walks a path from node to node. A node is an object in memory with a reference count; each
class has its own `open` and `close`, and three of them delete the object. What is on the disk enters
through `Disk`, which may be another one for each call.

* **`vfsOpen`**, `vfsCreate`, `vfsAtParent`, `cmdCd`: the code over them.

An address is not given to a second node, so that a pointer to a deleted node stays one; following it
has no result.
-/

namespace KeonOS

/-! ## Paths -/

/-- A C string without its terminating zero. -/
abbrev CStr := List Char

def skipSlashes (p : CStr) : CStr := p.dropWhile (· = '/')

/-- Read a component of at most `n` characters. -/
def nextComponent : ℕ → CStr → CStr × CStr
  | 0, p => ([], p)
  | _ + 1, [] => ([], [])
  | n + 1, c :: p =>
    if c = '/' then ([], c :: p) else (c :: (nextComponent n p).1, (nextComponent n p).2)

/-- The components that the loop of `vfs_open` reads; `fuel` is the length of the path. -/
def components : ℕ → CStr → List CStr
  | 0, _ => []
  | _, [] => []
  | fuel + 1, p =>
    (nextComponent 127 p).1 :: components fuel (skipSlashes (nextComponent 127 p).2)

def isAbsolute (path : CStr) : Bool := path.head? = some '/'

def pathComponents (path : CStr) : List CStr :=
  let p := if isAbsolute path then skipSlashes path else path
  components p.length p

/-- The path of the parent and the name, as `vfs_create`, `vfs_mkdir` and `vfs_unlink` find them. -/
def splitPath (path : CStr) : CStr × CStr :=
  let name := (path.reverse.takeWhile (· ≠ '/')).reverse
  let dir := path.take (path.length - name.length - 1)
  if '/' ∉ path then (['.'], path) else if dir = [] then (['/'], name) else (dir, name)

/-! ## Nodes -/

/-- The classes of the nodes under the overlay. -/
inductive NodeClass
  | overlay
  | ext4Dir
  | ext4File
  | fatDir
  | fatFile
  | keonMount
  | keonFile
deriving DecidableEq, Repr

/-- A node: its class, count and parent, its inode or cluster, and the nodes in its table. -/
structure VNode where
  cls : NodeClass
  refCount : ℕ
  parent : ℕ
  ino : ℕ
  entries : List (CStr × ℕ)
deriving DecidableEq, Repr

/-- The nodes by address, the globals and the open nodes; `lost` were deleted while pointed to. -/
structure Vfs where
  nodes : List (Option VNode)
  vfsRoot : ℕ
  underlying : ℕ
  cwdNode : ℕ
  handles : List ℕ
  lost : List ℕ
deriving Repr

/-- The directories on the disk: the number and the kind (whether it is a directory) of a name. -/
abbrev Disk := ℕ → CStr → Option (ℕ × Bool)

namespace Vfs

def node (s : Vfs) (a : ℕ) : Option VNode := (s.nodes[a]?).join

def setNode (s : Vfs) (a : ℕ) (n : VNode) : Vfs := { s with nodes := s.nodes.set a (some n) }

/-- `new`: the address and the state. -/
def alloc (s : Vfs) (n : VNode) : ℕ × Vfs := (s.nodes.length, { s with nodes := s.nodes ++ [some n] })

/-- What points to a node: the globals, the open descriptors and the parent fields. -/
def refs (s : Vfs) : List ℕ := s.vfsRoot :: s.underlying :: s.cwdNode :: s.handles ++
    s.nodes.filterMap fun n => n.map VNode.parent

def delete (s : Vfs) (a : ℕ) : Vfs :=
  let s₁ := { s with nodes := s.nodes.set a none }
  { s₁ with lost := if a ∈ s₁.refs then a :: s.lost else s.lost }

end Vfs

/-! ## Methods -/

/-- The classes whose `open` counts. -/
def NodeClass.counts : NodeClass → Bool
  | .overlay => true
  | .ext4Dir => true
  | .ext4File => true
  | .fatDir => true
  | _ => false

/-- `node->open()` -/
def openNode (a : ℕ) (s : Vfs) : Option Vfs := (s.node a).map fun n =>
    if n.cls.counts then s.setNode a { n with refCount := (n.refCount + 1) % 2 ^ 32 } else s

/-- `node->close()`. In `VFSNode::close`, which a FAT32 directory has, the unsigned count wraps. -/
def closeNode (a : ℕ) (s : Vfs) : Option Vfs := (s.node a).map fun n =>
    match n.cls with
    | .overlay => s.setNode a { n with refCount := n.refCount - 1 }
    | .ext4Dir | .ext4File =>
      if n.refCount - 1 = 0 then s.delete a
      else s.setNode a { n with refCount := n.refCount - 1 }
    | .fatDir =>
      let r := (n.refCount + (2 ^ 32 - 1)) % 2 ^ 32
      if r = 0 ∧ a ≠ s.vfsRoot then s.delete a else s.setNode a { n with refCount := r }
    | _ => s

/-- `finddir`, the overlay apart: a new node for what is on the disk. Only FAT32 sets the parent. -/
def baseFinddir (disk : Disk) (a : ℕ) (n : VNode) (name : CStr) (s : Vfs) : ℕ × Vfs :=
  match n.cls with
  | .ext4Dir =>
    match disk n.ino name with
    | none => (0, s)
    | some (ino, isDir) =>
      s.alloc { cls := if isDir then .ext4Dir else .ext4File, refCount := 0, parent := 0, ino := ino,
                entries := [] }
  | .fatDir =>
    match disk n.ino name with
    | none => (0, s)
    | some (ino, isDir) =>
      s.alloc { cls := if isDir then .fatDir else .fatFile, refCount := 0, parent := a, ino := ino,
                entries := [] }
  | .keonMount => ((n.entries.lookup name).getD 0, s)
  | _ => (0, s)

/-- `node->finddir(name)` -/
def finddir (disk : Disk) (a : ℕ) (name : CStr) (s : Vfs) : Option (ℕ × Vfs) := (s.node a).bind fun n =>
    if n.cls = .overlay then
      match n.entries.lookup name with
      | some b => some (b, s)
      | none => (s.node s.underlying).map fun base => baseFinddir disk s.underlying base name s
    else some (baseFinddir disk a n name s)

/-- `create` of the node `n`, the overlay apart, where `made` is the number of the new file. -/
def baseCreate (made : Option ℕ) (n : VNode) (s : Vfs) : ℕ × Vfs :=
  match n.cls, made with
  | .ext4Dir, some ino =>
    s.alloc { cls := .ext4File, refCount := 0, parent := 0, ino := ino, entries := [] }
  | .fatDir, some ino =>
    s.alloc { cls := .fatFile, refCount := 0, parent := 0, ino := ino, entries := [] }
  | _, _ => (0, s)

/-- `node->create(name, flags)` -/
def createNode (made : Option ℕ) (a : ℕ) (s : Vfs) : Option (ℕ × Vfs) := (s.node a).bind fun n =>
    if n.cls = .overlay then (s.node s.underlying).map fun base => baseCreate made base s
    else some (baseCreate made n s)

/-! ## Walking a path -/

/-- The node for one component, and the state; null when there is none. -/
def nextNode (disk : Disk) (current : ℕ) (component : CStr) (s : Vfs) : Option (ℕ × Vfs) :=
  if component = ['.', '.'] then
    (s.node current).bind fun n =>
      let next := if current = s.vfsRoot then s.vfsRoot else n.parent
      if next = 0 then some (0, s) else (openNode next s).map fun s => (next, s)
  else finddir disk current component s

def walkPath (disk : Disk) : List CStr → ℕ → Vfs → Option (ℕ × Vfs)
  | [], current, s => some (current, s)
  | c :: cs, current, s =>
    if c = ['.'] then walkPath disk cs current s
    else
      (nextNode disk current c s).bind fun r =>
        (closeNode current r.2).bind fun s =>
          if r.1 = 0 then some (0, s) else walkPath disk cs r.1 s

def startNode (path : CStr) (s : Vfs) : ℕ :=
  if isAbsolute path then s.vfsRoot else if s.cwdNode ≠ 0 then s.cwdNode else s.vfsRoot

def vfsOpen (disk : Disk) (path : CStr) (s : Vfs) : Option (ℕ × Vfs) :=
  (openNode (startNode path s) s).bind fun s₁ =>
    walkPath disk (pathComponents path) (startNode path s) s₁

/-- The node has been opened for a caller. -/
def Vfs.keep (s : Vfs) (a : ℕ) : Vfs := if a = 0 then s else { s with handles := a :: s.handles }

def vfsCreate (disk : Disk) (made : Option ℕ) (path : CStr) (s : Vfs) : Option (ℕ × Vfs) :=
  if path = [] then some (0, s)
  else
    (vfsOpen disk (splitPath path).1 s).bind fun r =>
      if r.1 = 0 then some (0, r.2)
      else
        (createNode made r.1 r.2).bind fun r' =>
          (closeNode r.1 r'.2).map fun s => (r'.1, s)

/-- `vfs_mkdir` and `vfs_unlink`: the parent is opened and closed, and no node is made. -/
def vfsAtParent (disk : Disk) (path : CStr) (s : Vfs) : Option Vfs :=
  if path = [] then some s
  else
    (vfsOpen disk (splitPath path).1 s).bind fun r =>
      if r.1 = 0 then some r.2 else closeNode r.1 r.2

/-- The nodes with `type == VFS_DIRECTORY`. -/
def NodeClass.isDirectory : NodeClass → Bool
  | .overlay => true
  | .ext4Dir => true
  | .fatDir => true
  | .keonMount => true
  | _ => false

/-- Close the old working directory, unless it is the root; it is no longer pointed to. -/
def leaveCwd (s : Vfs) : Option Vfs :=
  if s.cwdNode ≠ 0 ∧ s.cwdNode ≠ s.vfsRoot then closeNode s.cwdNode { s with cwdNode := 0 }
  else some s

/-- `cmd_cd` in the kernel, with the absolute path that `resolve_path` makes of its argument. -/
def cmdCd (disk : Disk) (path : CStr) (s : Vfs) : Option Vfs := (vfsOpen disk path s).bind fun r =>
    if r.1 = 0 then some r.2
    else
      (r.2.node r.1).bind fun n =>
        if n.cls.isDirectory then (leaveCwd r.2).map fun s => { s with cwdNode := r.1 }
        else closeNode r.1 r.2

/-! ## Calls -/

inductive VfsOp
  | open (path : CStr)
  | close (a : ℕ)
  | create (path : CStr) (made : Option ℕ)
  | mkdir (path : CStr)
  | unlink (path : CStr)
  | cd (path : CStr)
  | cdHome

def VfsOp.run (disk : Disk) : VfsOp → Vfs → Option Vfs
  | .open path, s => (vfsOpen disk path s).map fun r => r.2.keep r.1
  | .close a, s => closeNode a { s with handles := s.handles.erase a }
  | .create path made, s => (vfsCreate disk made path s).map fun r => r.2.keep r.1
  | .mkdir path, s => vfsAtParent disk path s
  | .unlink path, s => vfsAtParent disk path s
  | .cd path, s => cmdCd disk path s
  | .cdHome, s => (leaveCwd s).map fun s => { s with cwdNode := s.vfsRoot }

/-- A node is closed once for each time it was opened; `cd` has an absolute path. -/
def VfsOp.Enabled : VfsOp → Vfs → Prop
  | .close a, s => a ∈ s.handles
  | .cd path, _ => isAbsolute path = true
  | _, _ => True

/-- The state after `init_file_system`: the base at address 1, the overlay at 2, then the initrd. -/
def vfsInit (fat : Bool) (ino : ℕ) (initrd : Option (List CStr)) : Vfs where
  nodes :=
    [none, some { cls := if fat then .fatDir else .ext4Dir, refCount := 0, parent := 0, ino := ino,
                  entries := [] },
     some { cls := .overlay, refCount := 0, parent := 0, ino := 0,
            entries := if initrd.isSome then [("initrd".toList, 3)] else [] }] ++
    match initrd with
    | none => []
    | some names =>
      some { cls := .keonMount, refCount := 0, parent := 2, ino := 0,
             entries := names.zip (List.range' 4 names.length) } ::
        names.map fun _ => some { cls := .keonFile, refCount := 0, parent := 0, ino := 0, entries := [] }
  vfsRoot := 2
  underlying := 1
  cwdNode := 0
  handles := []
  lost := []

end KeonOS
