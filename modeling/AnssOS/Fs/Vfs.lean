import AnssOS.Foundation.LinkedForest
import AnssOS.Foundation.Utf8

/-!
# The in-memory file system

The model of `kernel/src/fs/vfs.rs`: a tree of vnodes in the kernel heap, linked by raw pointers.
A pointer is a number, and the null pointer is `none`.  The address of a freed node is not used
again, so that a stale pointer can be told from a pointer to a newer node.

The loops along the siblings and along the parents, and the recursions down the tree, run for at
most as many rounds as nodes were ever created.  In a tree that is always enough.
-/

namespace AnssOS

/-- `isize::MAX`: no buffer is longer. -/
def isizeMax : ℕ := 2 ^ 63 - 1

/-- `NAME_MAX`. -/
def nameMax : ℕ := 64

/-- A name is cut to `NAME_MAX - 1` bytes, at a character boundary. -/
def cutName (name : Text) : Text := floorChars (nameMax - 1) name

/-- `VnodeType`. -/
inductive VnodeType
  | dir
  | file
deriving DecidableEq

/-- `Vnode`. -/
structure Vnode where
  name : Text
  kind : VnodeType
  parent : Option ℕ
  children : Option ℕ
  sibling : Option ℕ
  data : List UInt8
deriving DecidableEq

/-- The heap of vnodes: those created so far have an address below `next`, and a freed one is
`none`. -/
structure Vfs where
  nodes : ℕ → Option Vnode
  next : ℕ
  root : ℕ

namespace Vfs

/-! ### Nodes and links -/

/-- The links of all nodes. -/
def links (fs : Vfs) : Links ℕ where
  up p := (fs.nodes p).bind (·.parent)
  first p := (fs.nodes p).bind (·.children)
  next p := (fs.nodes p).bind (·.sibling)

/-- `Vnode::children`: the children in list order, newest first. -/
def children (fs : Vfs) (p : ℕ) : List ℕ := siblings fs.links.next fs.next (fs.links.first p)

/-- `Vnode::is_dir`. -/
def isDir (fs : Vfs) (p : ℕ) : Bool := (fs.nodes p).any fun v => v.kind = .dir

/-- `Vnode::name`. -/
def nameOf (fs : Vfs) (p : ℕ) : Text := ((fs.nodes p).map (·.name)).getD []

/-- `Vnode::find_child`. -/
def findChild (fs : Vfs) (p : ℕ) (name : Text) : Option ℕ :=
  (fs.children p).find? fun c => fs.nameOf c = name

/-- A node is modified in place. -/
def modify (fs : Vfs) (p : ℕ) (f : Vnode → Vnode) : Vfs :=
  { fs with nodes := Function.update fs.nodes p ((fs.nodes p).map f) }

/-- A node is freed. -/
def erase (fs : Vfs) (p : ℕ) : Vfs := { fs with nodes := Function.update fs.nodes p none }

/-- `alloc_vnode`: the new node's address is the old `next`. -/
def allocVnode (fs : Vfs) (name : Text) (kind : VnodeType) : Vfs :=
  { fs with
    nodes := Function.update fs.nodes fs.next (some ⟨cutName name, kind, none, none, none, []⟩)
    next := fs.next + 1 }

/-- `Vnode::set_name`. -/
def setName (fs : Vfs) (p : ℕ) (name : Text) : Vfs :=
  fs.modify p fun v => { v with name := cutName name }

/-- `link_child`. -/
def linkChild (fs : Vfs) (parent child : ℕ) : Vfs :=
  (fs.modify child fun v => { v with parent := some parent, sibling := fs.links.first parent }).modify
    parent fun v => { v with children := some child }

/-- The link that leads to `child`, among the first-child link of `parent` and the sibling links of
its children, is set to what follows `child`. -/
def leadPast (fs : Vfs) (parent child : ℕ) : Option Vfs :=
  if fs.links.first parent = some child then
    some (fs.modify parent fun v => { v with children := fs.links.next child })
  else
    match (fs.children parent).find? fun q => fs.links.next q = some child with
    | some q => some (fs.modify q fun v => { v with sibling := fs.links.next child })
    | none => none

/-- `unlink_child`. -/
def unlinkChild (fs : Vfs) (parent child : ℕ) : Vfs :=
  match fs.leadPast parent child with
  | some fs => fs.modify child fun v => { v with sibling := none, parent := none }
  | none => fs

/-- `is_ancestor_or_self`. -/
def isAncestorOrSelf (fs : Vfs) (ancestor node : ℕ) : Bool :=
  fs.links.climbs ancestor fs.next (some node)

/-- `init`: the root has no name of its own. -/
def init : Vfs := allocVnode ⟨fun _ => none, 0, 0⟩ [] .dir

/-! ### Paths -/

/-- One component of a path, from the node `cur`. -/
def resolveComponent (fs : Vfs) (cur : ℕ) (component : Text) : Option ℕ :=
  let component := cutName component
  if component = [] ∨ component = ['.'] then some cur
  else if component = ['.', '.'] then some ((fs.links.up cur).getD cur)
  else if fs.isDir cur then fs.findChild cur component
  else none

/-- `resolve`. -/
def resolve (fs : Vfs) (base : ℕ) (path : Text) : Option ℕ :=
  (path.splitOn '/').foldlM fs.resolveComponent (if path.head? = some '/' then fs.root else base)

/-- `resolve_parent_and_leaf`: the part of the path before its last slash, and the part behind it. -/
def resolveParentAndLeaf (fs : Vfs) (base : ℕ) (path : Text) : Option (ℕ × Text) :=
  let path := path.rdropWhile (· = '/')
  if path = [] then none
  else
    let leaf := path.rtakeWhile (· ≠ '/')
    let parent := match path.rdropWhile (· ≠ '/') with
      | [] => some base
      | [_] => some fs.root
      | before => fs.resolve base before.dropLast
    parent.map fun parent => (parent, cutName leaf)

/-! ### Operations -/

/-- `create_leaf`. -/
def createLeaf (fs : Vfs) (base : ℕ) (path : Text) (kind : VnodeType) : Bool × Vfs :=
  match fs.resolveParentAndLeaf base path with
  | none => (false, fs)
  | some (parent, leaf) =>
      if !fs.isDir parent then (false, fs)
      else if leaf = [] then (false, fs)
      else if (fs.findChild parent leaf).isSome then (false, fs)
      else (true, (fs.allocVnode leaf kind).linkChild parent fs.next)

/-- `mkdir`. -/
def mkdir (fs : Vfs) (base : ℕ) (path : Text) : Bool × Vfs := fs.createLeaf base path .dir

/-- `create_file`. -/
def createFile (fs : Vfs) (base : ℕ) (path : Text) : Bool × Vfs := fs.createLeaf base path .file

/-- `free_tree`, for at most `n` levels. -/
def freeTree : ℕ → Vfs → ℕ → Vfs
  | 0, fs, _ => fs
  | n + 1, fs, node =>
      (if fs.isDir node then (fs.children node).foldl (freeTree n) fs else fs).erase node

/-- `remove`. -/
def remove (fs : Vfs) (base : ℕ) (path : Text) (cwd : ℕ) : Bool × Vfs :=
  match fs.resolve base path with
  | none => (false, fs)
  | some node =>
      if node = fs.root then (false, fs)
      else if fs.isAncestorOrSelf node cwd then (false, fs)
      else
        let unlinked := match fs.links.up node with
          | some parent => fs.unlinkChild parent node
          | none => fs
        (true, freeTree fs.next unlinked node)

/-- `copy_recursive`, for at most `n` levels: the new node and the heap with the copy. -/
def copyRecursive : ℕ → Vfs → ℕ → Text → Option (ℕ × Vfs)
  | 0, _, _, _ => none
  | n + 1, fs, src, newName =>
      match fs.nodes src with
      | none => none
      | some v =>
          let copy := fs.next
          let copied := fs.allocVnode newName v.kind
          if v.kind ≠ .dir then some (copy, copied.modify copy fun w => { w with data := v.data })
          else
            ((fs.children src).foldlM (fun fs c =>
              (copyRecursive n fs c (fs.nameOf c)).map fun child => child.2.linkChild copy child.1)
              copied).map fun fs => (copy, fs)

/-- `resolve_target`. -/
def resolveTarget (fs : Vfs) (base : ℕ) (destPath : Text) (src : ℕ) : Option (ℕ × Text) :=
  match (fs.resolve base destPath).filter fs.isDir with
  | some dest => some (dest, fs.nameOf src)
  | none => (fs.resolveParentAndLeaf base destPath).filter fun target => fs.isDir target.1

/-- `copy`. -/
def copy (fs : Vfs) (base : ℕ) (srcPath destPath : Text) : Bool × Vfs :=
  match fs.resolve base srcPath with
  | none => (false, fs)
  | some src =>
      match fs.resolveTarget base destPath src with
      | none => (false, fs)
      | some (parent, leaf) =>
          if leaf = [] then (false, fs)
          else if (fs.findChild parent leaf).isSome then (false, fs)
          else if fs.isDir src && fs.isAncestorOrSelf src parent then (false, fs)
          else
            match copyRecursive fs.next fs src leaf with
            | none => (false, fs)
            | some (copy, fs) => (true, fs.linkChild parent copy)

/-- `move_node`. -/
def moveNode (fs : Vfs) (base : ℕ) (srcPath destPath : Text) : Bool × Vfs :=
  match fs.resolve base srcPath with
  | none => (false, fs)
  | some src =>
      if src = fs.root then (false, fs)
      else
        match fs.resolveTarget base destPath src with
        | none => (false, fs)
        | some (parent, leaf) =>
            if leaf = [] then (false, fs)
            else if (fs.findChild parent leaf).any (· ≠ src) then (false, fs)
            else if fs.isDir src && fs.isAncestorOrSelf src parent then (false, fs)
            else
              let unlinked := match fs.links.up src with
                | some old => fs.unlinkChild old src
                | none => fs
              (true, (unlinked.setName src leaf).linkChild parent src)

/-- The content of a file is replaced, if the node is one. -/
def setData (fs : Vfs) (node : ℕ) (data : List UInt8) : Bool × Vfs :=
  if fs.isDir node then (false, fs) else (true, fs.modify node fun v => { v with data := data })

/-- `write_bytes`. -/
def writeBytes (fs : Vfs) (base : ℕ) (path : Text) (data : List UInt8) : Bool × Vfs :=
  match fs.resolve base path with
  | some node => fs.setData node data
  | none =>
      match fs.createFile base path with
      | (false, fs) => (false, fs)
      | (true, fs) =>
          match fs.resolve base path with
          | some node => fs.setData node data
          | none => (false, fs)

/-- `Vnode::data`. -/
def dataOf (fs : Vfs) (p : ℕ) : List UInt8 := ((fs.nodes p).map (·.data)).getD []

/-- `write_file`. -/
def writeFile (fs : Vfs) (base : ℕ) (path : Text) (text : List UInt8) (append : Bool) :
    Bool × Vfs :=
  match (fs.resolve base path).filter fun n => append && !fs.isDir n with
  | some n => fs.writeBytes base path (fs.dataOf n ++ text)
  | none => fs.writeBytes base path text

/-- `cat`: the bytes that it prints, with the newline. -/
def cat (fs : Vfs) (base : ℕ) (path : Text) : Option (List UInt8) :=
  match fs.resolve base path with
  | none => none
  | some node => if fs.isDir node then none else some (fs.dataOf node ++ [10])

/-- The names on the way from a node up to the root, for at most `n` nodes. -/
def pathParts (fs : Vfs) : ℕ → Option ℕ → List Text
  | 0, _ => []
  | _ + 1, none => []
  | n + 1, some p => if p = fs.root then [] else fs.nameOf p :: fs.pathParts n (fs.links.up p)

/-- `path`. -/
def path (fs : Vfs) (node : ℕ) : Text :=
  let parts := fs.pathParts fs.next (some node)
  if parts = [] then ['/'] else parts.reverse.foldl (fun s p => s ++ '/' :: p) []

end Vfs

/-- The operations that change the tree. -/
inductive VfsOp
  | mkdir (base : ℕ) (path : Text)
  | createFile (base : ℕ) (path : Text)
  | remove (base : ℕ) (path : Text) (cwd : ℕ)
  | copy (base : ℕ) (srcPath destPath : Text)
  | moveNode (base : ℕ) (srcPath destPath : Text)
  | writeBytes (base : ℕ) (path : Text) (data : List UInt8)
  | writeFile (base : ℕ) (path : Text) (text : List UInt8) (append : Bool)

/-- What an operation returns, and the tree it leaves. -/
def Vfs.apply (fs : Vfs) : VfsOp → Bool × Vfs
  | .mkdir base path => fs.mkdir base path
  | .createFile base path => fs.createFile base path
  | .remove base path cwd => fs.remove base path cwd
  | .copy base srcPath destPath => fs.copy base srcPath destPath
  | .moveNode base srcPath destPath => fs.moveNode base srcPath destPath
  | .writeBytes base path data => fs.writeBytes base path data
  | .writeFile base path text append => fs.writeFile base path text append

end AnssOS
