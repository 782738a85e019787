import DocTags.KeyedList
import DocTags.Path

/-! A file system and the folder in it that a command runs in. A place is told by the names that lead to
it from the top. A name in a folder leads to the place below, or as a link to any other place. -/
namespace DocTags
namespace FileSystem

abbrev Place := List Bytes

inductive Node
  /-- A file: its bytes, or why they cannot be read. -/
  | file (content : Except Text ByteArray)
  /-- A folder with the places that its names lead to. The names may be refused to whoever lists them,
  but can still be followed. -/
  | folder (refusal : Option Text) (children : List (Bytes × Place))

namespace Node

def isFile : Node → Bool
  | file _ => true
  | folder _ _ => false

def isFolder (t : Node) : Bool := !t.isFile

def listed? : Node → Option (List (Bytes × Place))
  | folder none children => some children
  | _ => none

/-- A folder holds proper names, each at most once. -/
def WellNamed : Node → Prop
  | file _ => True
  | folder _ children =>
    (KeyedList.keys children).Nodup ∧ ∀ n ∈ KeyedList.keys children, Path.IsFileName n

end Node

abbrev Nodes := List (Place × Node)

def Nodes.WellNamed (nodes : Nodes) : Prop := ∀ e ∈ nodes, e.2.WellNamed

end FileSystem

structure FileSystem where
  nodes : FileSystem.Nodes
  working : FileSystem.Place
  wellNamed : nodes.WellNamed

namespace FileSystem

def node? (fs : FileSystem) (s : Place) : Option Node := fs.nodes.lookup s

/-- Where one piece of a path leads. Only a folder can be passed through, and nothing is above the
top. -/
def step (fs : FileSystem) (s : Place) (p : Bytes) : Option Place :=
  match fs.node? s with
  | some (.folder _ children) =>
    if !Path.isStep p then some s
    else if p = Path.parent then some s.dropLast
    else children.lookup p
  | _ => none

def start (fs : FileSystem) (path : Bytes) : Place :=
  if path.head? = some Path.slash then [] else fs.working

def place? (fs : FileSystem) (path : Bytes) : Option Place :=
  if path.isEmpty then none else (Path.pieces path).foldlM fs.step (fs.start path)

def find? (fs : FileSystem) (path : Bytes) : Option Node := (fs.place? path).bind fs.node?

def read (fs : FileSystem) (path : Bytes) : Except Text Text :=
  match fs.find? path with
  | some (.file (.ok bytes)) =>
    match Text.ofUtf8? bytes with
    | some s => .ok s
    | none => .error Text.invalidUtf8
  | some (.file (.error reason)) => .error reason
  | some (.folder _ _) => .error "Is a directory (os error 21)".toList
  | none => .error "No such file or directory (os error 2)".toList

namespace Nodes

theorem WellNamed.of_lookup {nodes : Nodes} (h : nodes.WellNamed) {s : Place} {t : Node}
    (ht : nodes.lookup s = some t) : t.WellNamed := by
  obtain ⟨before,after,rfl,-⟩ := List.lookup_eq_some_iff.mp ht
  exact h (s,t) (by simp)

theorem WellNamed.put {nodes : Nodes} (h : nodes.WellNamed) (s : Place) {t : Node}
    (ht : t.WellNamed) : Nodes.WellNamed (KeyedList.put s t nodes) := by
  intro e he
  rcases KeyedList.mem_of_mem_put he with rfl | he
  · exact ht
  · exact h e he

def enter (s : Place) (n : Bytes) (target : Place) (nodes : Nodes) : Nodes :=
  KeyedList.put s (match nodes.lookup s with
    | some (.folder refusal children) => .folder refusal (KeyedList.put n target children)
    | _ => .folder none [(n,target)]) nodes

theorem WellNamed.enter {nodes : Nodes} (h : nodes.WellNamed) (s : Place) {n : Bytes}
    (hn : Path.IsFileName n) (target : Place) : (nodes.enter s n target).WellNamed := by
  refine h.put s ?_
  split
  · rename_i refusal children hs
    obtain ⟨hd,hc⟩ := h.of_lookup hs
    refine ⟨KeyedList.nodup_keys_put hd,fun m hm => ?_⟩
    obtain ⟨e,he,rfl⟩ := List.mem_map.mp hm
    rcases KeyedList.mem_of_mem_put he with rfl | he
    · exact hn
    · exact hc e.1 (List.mem_map_of_mem he)
  · exact ⟨by simp [KeyedList.keys],by simpa [KeyedList.keys] using hn⟩

inductive Leaf
  | file (content : Except Text ByteArray)
  | folder (refusal : Option Text)
  | link (target : Place)

/-- Puts a leaf where the names lead from a place, with the folders on the way. A folder keeps its
children. -/
def insert (leaf : Leaf) : (s : Place) → (names : List Bytes) → Nodes → Nodes
  | s,[],nodes =>
    match leaf,nodes.lookup s with
    | .file content,_ => KeyedList.put s (.file content) nodes
    | .folder refusal,some (.folder refusal' children) =>
      KeyedList.put s (.folder (refusal.or refusal') children) nodes
    | .folder refusal,_ => KeyedList.put s (.folder refusal []) nodes
    | .link _,_ => nodes
  | s,n :: names,nodes =>
    match leaf,names with
    | .link target,[] => nodes.enter s n target
    | leaf,names => insert leaf (s ++ [n]) names (nodes.enter s n (s ++ [n]))

theorem WellNamed.insert {nodes : Nodes} (h : nodes.WellNamed) (leaf : Leaf) (s : Place)
    {names : List Bytes} (hn : ∀ n ∈ names, Path.IsFileName n) :
    (Nodes.insert leaf s names nodes).WellNamed := by
  induction names generalizing s nodes with
  | nil =>
    unfold Nodes.insert
    split
    · exact h.put s trivial
    · rename_i refusal refusal' children hs
      have hc : (Node.folder refusal' children).WellNamed := h.of_lookup hs
      exact h.put s hc
    · exact h.put s ⟨List.nodup_nil,by simp [KeyedList.keys]⟩
    · exact h
  | cons n names ih =>
    have hne := hn n (by simp)
    unfold Nodes.insert
    split
    · exact h.enter s hne _
    · exact ih (h.enter s hne _) _ fun m hm => hn m (by simp [hm])

end Nodes

def names (path : Bytes) : List Bytes := (Path.pieces path).filter Path.IsFileName

theorem isFileName_of_mem_names {path n : Bytes} (h : n ∈ names path) : Path.IsFileName n :=
  of_decide_eq_true (List.mem_filter.mp h).2

theorem wellNamed_foldl_insert (leaves : List (Bytes × Nodes.Leaf)) {nodes : Nodes}
    (h : nodes.WellNamed) :
    (leaves.foldl (fun nodes e => Nodes.insert e.2 [] (names e.1) nodes) nodes).WellNamed := by
  induction leaves generalizing nodes with
  | nil => exact h
  | cons e leaves ih => exact ih (h.insert e.2 [] fun _ => isFileName_of_mem_names)

/-- The file system of leaves that are given by their paths from the top. -/
def ofLeaves (working : Bytes) (leaves : List (Bytes × Nodes.Leaf)) : FileSystem where
  nodes := leaves.foldl (fun nodes e => Nodes.insert e.2 [] (names e.1) nodes) [([],.folder none [])]
  working := names working
  wellNamed := wellNamed_foldl_insert leaves (by simp [Nodes.WellNamed,Node.WellNamed,KeyedList.keys])

def someFolder : Bytes := Text.bytes "/work".toList

/-- Files in a working folder, and folders where no bytes are given. -/
def ofPaths (entries : List (Text × Option ByteArray)) : FileSystem :=
  ofLeaves someFolder ((someFolder,.folder none) :: entries.map fun e =>
    (Path.join someFolder e.1.bytes,match e.2 with
      | some bytes => .file (.ok bytes)
      | none => .folder none))

end FileSystem
end DocTags
