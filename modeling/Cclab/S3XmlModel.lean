import Cclab.LinkedTree
import Cclab.OperationRuns
import Mathlib.Data.UInt

/-! `S3XmlDoc` and `S3XmlNode` of `s3xml/s3_xml.cc`. A node of rapidxml keeps the pointers to its
name and its value that it was given and the lengths that were measured then. How rapidxml
compares names, reads a text and writes one is a parameter. -/
namespace Cclab.S3Xml
open LinkedTree

abbrev Bytes := List UInt8

def ascii (s : String) : Bytes := s.toList.map Char.toUInt8

/-- How `std::string` gets its memory: the room for a text, and whether an assignment of some
length writes into the room that the string has. -/
structure StringMemory where
  capacity : ℕ → ℕ
  fits : ∀ n, n ≤ capacity n
  inPlace : ℕ → ℕ → Bool
  roomy : ∀ room n, inPlace room n = true → n ≤ room

/-- The memory of strings, `none` where it was freed. -/
abbrev Buffers := List (Option Bytes)

def cells (heap : Buffers) (buffer : ℕ) : Option Bytes := heap[buffer]?.join

structure CppString where
  buffer : ℕ
  size : ℕ

def contents (heap : Buffers) (s : CppString) : Option Bytes :=
  (cells heap s.buffer).map fun cs => cs.take s.size

/-- A pointer to characters and the length measured there. -/
structure Text where
  buffer : ℕ
  length : ℕ

/-- The characters up to the first 0. -/
def cString (cs : Bytes) : Bytes := cs.takeWhile (· ≠ 0)

/-- What a node shows of a string that may have been overwritten since. -/
def shown (heap : Buffers) (t : Text) : Option Bytes :=
  (cells heap t.buffer).map fun cs => cs.take t.length

inductive NodeType where
  | document | element | data | cdata | comment | declaration | doctype | pi
deriving DecidableEq

/-- `xml_node`; its links are kept in the document. -/
structure Node where
  type : NodeType
  name : Text
  value : Text
  attributes : List (Bytes × Bytes)

/-- What `print` sees of a node: no characters where they were freed. -/
structure Token where
  type : NodeType
  name : Option Bytes
  value : Option Bytes
  attributes : List (Bytes × Bytes)
deriving DecidableEq

/-- A node that `parse` attaches: under the node of this number among those of the text, or at the
top. -/
structure ParsedNode where
  type : NodeType
  name : Bytes
  value : Bytes
  attributes : List (Bytes × Bytes)
  parent : Option ℕ

/-- `sameName` is the comparison in `first_node` and `next_sibling`. `parse` gives the nodes that are
attached, and whether it returns; it throws otherwise. -/
structure Rapidxml where
  sameName : Bytes → Bytes → Bool
  parse : Bytes → List ParsedNode × Bool
  print : List (Visit Token) → Bytes

/-- `S3XmlNode::Rep`; a handle. -/
structure S3XmlNode where
  name : CppString
  value : CppString
  hasDoc : Bool
  repNode : Option ℕ

/-- `S3XmlDoc::Rep` with all handles. Names and values are different strings, so each kind has a
memory of its own. The first node is `doc_`. -/
structure S3XmlDoc where
  names : Buffers
  values : Buffers
  nodes : List Node
  links : Links
  handles : List S3XmlNode
  rnode : ℕ

section strings
variable (memory : StringMemory)

/-- A string with this text in new memory. -/
def newString (heap : Buffers) (text : Bytes) : Buffers × CppString :=
  (heap ++ [some (text ++ 0 :: List.replicate (memory.capacity text.length-text.length) 0)],
    ⟨heap.length,text.length⟩)

/-- `operator=`; the memory that is not kept is freed. -/
def assign (heap : Buffers) (s : CppString) (text : Bytes) : Option (Buffers × CppString) :=
  (cells heap s.buffer).map fun old =>
    if memory.inPlace (old.length-1) text.length then
      -- the bytes behind the new text stay in the memory that is kept
      (heap.set s.buffer (some (text ++ 0 :: old.drop (text.length+1))), ⟨s.buffer,text.length⟩)
    else newString memory (heap.set s.buffer none) text

end strings

def xmlHeader : Bytes := ascii "xml version='1.0' encoding='utf-8'"

def xmlNs : Bytes := ascii "http://s3.amazonaws.com/doc/2006-03-01/"

/-- `append_node`, which asserts that the child is not in the tree. -/
def S3XmlDoc.append (doc : S3XmlDoc) (p c : ℕ) : Option S3XmlDoc :=
  if doc.links.parent c = none ∧ c ≠ 0 then some { doc with links := doc.links.append p c } else none

/-- The node of a handle that must denote one. -/
def S3XmlDoc.repNode (doc : S3XmlDoc) (h : ℕ) : Option ℕ := doc.handles[h]?.bind S3XmlNode.repNode

/-- The constructor of `S3XmlDoc::Rep`. The empty name and value of `doc_` and the value of the
header are one string. -/
def S3XmlDoc.create (memory : StringMemory) (rootNode value : Bytes) : S3XmlDoc :=
  let (names,n) := newString memory [some [0], some (xmlHeader ++ [0])] rootNode
  let (values,v) := newString memory [some [0]] value
  { names := names
    values := values
    nodes :=
      [⟨.document,⟨0,0⟩,⟨0,0⟩,[]⟩,
       ⟨.pi,⟨1,xmlHeader.length⟩,⟨0,0⟩,[]⟩,
       ⟨.element,⟨n.buffer,(cString rootNode).length⟩,⟨v.buffer,(cString value).length⟩,
        [(ascii "xmlns",xmlNs)]⟩]
    links := (Links.append ⟨fun _ => none,fun _ => []⟩ 0 1).append 0 2
    handles := []
    rnode := 2 }

/-- `AllocateNode`. The handle that it returns is the last one. -/
def S3XmlDoc.allocateNode (memory : StringMemory) (doc : S3XmlDoc) (name value : Bytes) : S3XmlDoc :=
  -- the node points into the strings of its own handle
  let (names,n) := newString memory doc.names name
  let (values,v) := newString memory doc.values value
  { doc with
    names := names
    values := values
    nodes := doc.nodes ++
      [⟨.element,⟨n.buffer,(cString name).length⟩,⟨v.buffer,(cString value).length⟩,[]⟩]
    handles := doc.handles ++ [⟨n,v,true,some doc.nodes.length⟩] }

/-- `AppendToRoot` on a handle. -/
def S3XmlDoc.appendHandleToRoot (doc : S3XmlDoc) (node : ℕ) : Option S3XmlDoc := do
  let c ← doc.repNode node
  doc.append doc.rnode c

/-- `AppendToRoot` on a name and a value. -/
def S3XmlDoc.appendToRoot (memory : StringMemory) (doc : S3XmlDoc) (name value : Bytes) :
    Option S3XmlDoc :=
  (doc.allocateNode memory name value).appendHandleToRoot doc.handles.length

/-- `S3XmlNode::AppendNode` on a handle. -/
def S3XmlDoc.appendHandle (doc : S3XmlDoc) (node newNode : ℕ) : Option S3XmlDoc := do
  let p ← doc.repNode node
  let c ← doc.repNode newNode
  doc.append p c

/-- `S3XmlNode::AppendNode` on a name and a value; the handle must have a document. -/
def S3XmlDoc.appendNode (memory : StringMemory) (doc : S3XmlDoc) (node : ℕ) (name value : Bytes) :
    Option S3XmlDoc := do
  let handle ← doc.handles[node]?
  -- both assertions come before anything is allocated
  let _ ← handle.repNode
  if handle.hasDoc then
    (doc.allocateNode memory name value).appendHandle node doc.handles.length
  else none

/-- `S3XmlNode()`. -/
def S3XmlDoc.newHandle (memory : StringMemory) (doc : S3XmlDoc) : S3XmlDoc :=
  let (names,n) := newString memory doc.names []
  let (values,v) := newString memory doc.values []
  { doc with names := names, values := values, handles := doc.handles ++ [⟨n,v,false,none⟩] }

section lookups
variable (memory : StringMemory) (xml : Rapidxml) (doc : S3XmlDoc)

/-- The first of these nodes with this name. -/
def S3XmlDoc.firstNamed (name : Bytes) : List ℕ → Option (Option ℕ)
  | [] => some none
  | c :: cs => do
    let node ← doc.nodes[c]?
    let text ← shown doc.names node.name
    if xml.sameName text name then return some c else S3XmlDoc.firstNamed name cs

/-- `first_node`. -/
def S3XmlDoc.firstNode (p : ℕ) (name : Bytes) : Option (Option ℕ) :=
  doc.firstNamed xml name (doc.links.children p)

/-- `next_sibling`, which asserts that the node is in a tree. -/
def S3XmlDoc.nextNode (n : ℕ) (name : Bytes) : Option (Option ℕ) := do
  -- the siblings behind the node
  let p ← doc.links.parent n
  doc.firstNamed xml name (((doc.links.children p).dropWhile (· ≠ n)).drop 1)

/-- `node->value()` as a string. -/
def S3XmlDoc.valueOf (n : ℕ) : Option Bytes := do
  let node ← doc.nodes[n]?
  (cells doc.values node.value.buffer).map cString

/-- `NextSibling` leaves the name of its handle. -/
def S3XmlDoc.assignName (handle : S3XmlNode) : Option Bytes → Option (Buffers × CppString)
  | none => some (doc.names,handle.name)
  | some text => assign memory doc.names handle.name text

/-- The assignments to a handle that is made to denote the node `n`. -/
def S3XmlDoc.setHandle (h : ℕ) (name : Option Bytes) (n : ℕ) : Option S3XmlDoc := do
  let handle ← doc.handles[h]?
  let (names,newName) ← doc.assignName memory handle name
  let text ← doc.valueOf n
  let (values,newValue) ← assign memory doc.values handle.value text
  return { doc with
    names := names
    values := values
    handles := doc.handles.set h
      { handle with name := newName, value := newValue, repNode := some n } }

/-- The end of a lookup. -/
def S3XmlDoc.denote (h : ℕ) (name : Option Bytes) : Option ℕ → Option (S3XmlDoc × Bool)
  | none => some (doc,false)
  | some n => (doc.setHandle memory h name n).map fun doc => (doc,true)

/-- `S3XmlDoc::FindFirstNode`. -/
def S3XmlDoc.docFindFirstNode (name : Bytes) (firstNode : ℕ) : Option (S3XmlDoc × Bool) := do
  let found ← doc.firstNode xml 0 name
  doc.denote memory firstNode (some name) found

/-- `S3XmlNode::FindFirstNode`. -/
def S3XmlDoc.findFirstNode (node : ℕ) (name : Bytes) (firstNode : ℕ) : Option (S3XmlDoc × Bool) := do
  let p ← doc.repNode node
  let found ← doc.firstNode xml p name
  doc.denote memory firstNode (some name) found

/-- The name that a handle looks for, which must not be empty. -/
def S3XmlDoc.siblingName (node : ℕ) : Option Bytes := do
  let handle ← doc.handles[node]?
  let name ← contents doc.names handle.name
  if name = [] then none else return name

/-- `S3XmlNode::NextSibling`. -/
def S3XmlDoc.nextSibling (node : ℕ) : Option (S3XmlDoc × Bool) := do
  let n ← doc.repNode node
  let name ← doc.siblingName node
  let found ← doc.nextNode xml n name
  doc.denote memory node none found

end lookups

/-- The nodes of a text are attached one after the other, under those that `parse` made before. -/
def S3XmlDoc.attach (base : ℕ) : S3XmlDoc → List ParsedNode → S3XmlDoc
  | doc, [] => doc
  | doc, p :: ps =>
    let parent :=
      -- only a node that was made before can be the parent
      match p.parent with
      | none => 0
      | some k => if base+k < doc.nodes.length then base+k else 0
    S3XmlDoc.attach base
      { doc with
        names := doc.names ++ [some (p.name ++ [0])]
        values := doc.values ++ [some (p.value ++ [0])]
        nodes := doc.nodes ++
          [⟨p.type,⟨doc.names.length,p.name.length⟩,⟨doc.values.length,p.value.length⟩,p.attributes⟩]
        links := doc.links.append parent doc.nodes.length } ps

/-- `ParseFromString`: `parse` detaches all nodes first. -/
def S3XmlDoc.parseFromString (xml : Rapidxml) (doc : S3XmlDoc) (s : Bytes) : S3XmlDoc × Bool :=
  (S3XmlDoc.attach doc.nodes.length { doc with links := doc.links.removeAll 0 } (xml.parse s).1,
    (xml.parse s).2)

def S3XmlDoc.token (doc : S3XmlDoc) (n : ℕ) : Token :=
  match doc.nodes[n]? with
  | none => ⟨.document,none,none,[]⟩
  | some node =>
    ⟨node.type,shown doc.names node.name,shown doc.values node.value,node.attributes⟩

/-- The nodes that are attached to `doc_`, in the order in which they are printed. -/
def S3XmlDoc.printed (doc : S3XmlDoc) : Option (List (Visit Token)) :=
  walk doc.links doc.token doc.nodes.length 0

/-- `ToString`. It reads whatever is in memory that was freed; here `print` is given no characters
there, and its text stands for any. -/
def S3XmlDoc.toString (xml : Rapidxml) (doc : S3XmlDoc) : Option Bytes := doc.printed.map xml.print

inductive Op where
  | newHandle
  | allocateNode (name value : Bytes)
  | appendToRoot (name value : Bytes)
  | appendHandleToRoot (node : ℕ)
  | appendHandle (node newNode : ℕ)
  | appendNode (node : ℕ) (name value : Bytes)
  | docFindFirstNode (name : Bytes) (firstNode : ℕ)
  | findFirstNode (node : ℕ) (name : Bytes) (firstNode : ℕ)
  | nextSibling (node : ℕ)
  | parseFromString (s : Bytes)

/-- One operation with what it returns; those that return nothing give `true`. -/
def S3XmlDoc.step (memory : StringMemory) (xml : Rapidxml) (doc : S3XmlDoc) :
    Op → Option (S3XmlDoc × Bool)
  | .newHandle => some (doc.newHandle memory,true)
  | .allocateNode name value => some (doc.allocateNode memory name value,true)
  | .appendToRoot name value => (doc.appendToRoot memory name value).map fun doc => (doc,true)
  | .appendHandleToRoot node => (doc.appendHandleToRoot node).map fun doc => (doc,true)
  | .appendHandle node newNode => (doc.appendHandle node newNode).map fun doc => (doc,true)
  | .appendNode node name value => (doc.appendNode memory node name value).map fun doc => (doc,true)
  | .docFindFirstNode name firstNode => doc.docFindFirstNode memory xml name firstNode
  | .findFirstNode node name firstNode => doc.findFirstNode memory xml node name firstNode
  | .nextSibling node => doc.nextSibling memory xml node
  | .parseFromString s => some (doc.parseFromString xml s)

/-- The document behind one operation. -/
def S3XmlDoc.move (memory : StringMemory) (xml : Rapidxml) (doc : S3XmlDoc) (op : Op) :
    Option S3XmlDoc :=
  (doc.step memory xml op).map Prod.fst

/-- Room for 15 characters in the string itself, and more only where a text needs it. -/
def shortStrings : StringMemory where
  capacity := max 15
  fits := Nat.le_max_right 15
  inPlace := fun room n => n ≤ room
  roomy := fun _ _ h => of_decide_eq_true h

def tolower (c : UInt8) : UInt8 := if 65 ≤ c ∧ c ≤ 90 then c+32 else c

def indent (depth : ℕ) : Bytes := List.replicate depth 9

def Token.nameText (t : Token) : Bytes := t.name.getD []

def Token.valueText (t : Token) : Bytes := t.value.getD []

def Token.attributesText (t : Token) : Bytes :=
  t.attributes.flatMap fun a => ascii " " ++ a.1 ++ ascii "=\"" ++ a.2 ++ ascii "\""

/-- `print` on elements and the header, where no character needs to be escaped. -/
def printElements : ℕ → List (Visit Token) → Bytes
  | _, [] => []
  | depth, .enter t :: .leave _ :: rest =>
    -- a node without children
    if t.type = .document then ascii "\n" ++ printElements depth rest
    else if t.type = .pi then
      indent depth ++ ascii "<?" ++ t.nameText ++ ascii " " ++ t.valueText ++ ascii "?>\n" ++
        printElements depth rest
    else if t.valueText = [] then
      indent depth ++ ascii "<" ++ t.nameText ++ t.attributesText ++ ascii "/>\n" ++
        printElements depth rest
    else
      indent depth ++ ascii "<" ++ t.nameText ++ t.attributesText ++ ascii ">" ++ t.valueText ++
        ascii "</" ++ t.nameText ++ ascii ">\n" ++ printElements depth rest
  | depth, .enter t :: rest =>
    if t.type = .document then printElements depth rest
    else
      indent depth ++ ascii "<" ++ t.nameText ++ t.attributesText ++ ascii ">\n" ++
        printElements (depth+1) rest
  | depth, .leave t :: rest =>
    if t.type = .document then ascii "\n" ++ printElements depth rest
    else indent (depth-1) ++ ascii "</" ++ t.nameText ++ ascii ">\n" ++ printElements (depth-1) rest

/-- rapidxml as far as it parses texts without an element, of which only the empty one is one. -/
def elementsXml : Rapidxml where
  sameName := fun a b => a.map tolower = b.map tolower
  parse := fun s => ([],s = [])
  print := printElements 0

end Cclab.S3Xml
