import Cclab.S3XmlModel

/-! What every operation keeps: the links are those of a tree below `doc_`, and no node or handle
points outside the memory. -/
namespace Cclab.S3Xml
open LinkedTree OperationRuns

structure Sound (doc : S3XmlDoc) : Prop where
  linked : Linked doc.links doc.nodes.length
  top : doc.links.parent 0 = none
  size : 0 < doc.nodes.length
  texts : ∀ node ∈ doc.nodes,
    node.name.buffer < doc.names.length ∧ node.value.buffer < doc.values.length
  denoted : ∀ handle ∈ doc.handles, ∀ n, handle.repNode = some n → n < doc.nodes.length
  rnode : doc.rnode < doc.nodes.length

section strings
variable (memory : StringMemory)

/-- All that an assignment can do. -/
theorem assign_cases (heap heap' : Buffers) (s s' : CppString) (text : Bytes)
    (h : assign memory heap s text = some (heap',s')) :
    ∃ old, cells heap s.buffer = some old ∧
      ((memory.inPlace (old.length-1) text.length = true ∧
          heap' = heap.set s.buffer (some (text ++ 0 :: old.drop (text.length+1)))) ∨
        (memory.inPlace (old.length-1) text.length = false ∧
          ∃ new, heap' = heap.set s.buffer none ++ [new])) := by
  rcases Option.map_eq_some_iff.mp h with ⟨old,hold,he⟩
  refine ⟨old, hold, ?_⟩
  by_cases hplace : memory.inPlace (old.length-1) text.length = true
  · rw [if_pos hplace] at he
    exact Or.inl ⟨hplace, (Prod.mk.inj he).1.symm⟩
  · rw [if_neg hplace] at he
    exact Or.inr ⟨Bool.not_eq_true _ ▸ hplace, _, (Prod.mk.inj he).1.symm⟩

theorem assign_length (heap heap' : Buffers) (s s' : CppString) (text : Bytes)
    (h : assign memory heap s text = some (heap',s')) : heap.length ≤ heap'.length := by
  rcases assign_cases memory heap heap' s s' text h with ⟨old,-,⟨-,rfl⟩ | ⟨-,new,rfl⟩⟩
  · rw [List.length_set]
  · rw [List.length_append, List.length_set]
    exact Nat.le_add_right _ _

end strings

theorem Sound.node_lt (doc : S3XmlDoc) (hd : Sound doc) (h n : ℕ) (hn : doc.repNode h = some n) :
    n < doc.nodes.length := by
  rcases Option.bind_eq_some_iff.mp hn with ⟨handle,hh,hr⟩
  exact hd.denoted handle (List.mem_of_getElem? hh) n hr

theorem append_cases (doc doc' : S3XmlDoc) (p c : ℕ) (h : doc.append p c = some doc') :
    doc.links.parent c = none ∧ c ≠ 0 ∧ doc' = { doc with links := doc.links.append p c } := by
  unfold S3XmlDoc.append at h
  split_ifs at h with hfree
  exact ⟨hfree.1, hfree.2, (Option.some.inj h).symm⟩

theorem Sound.append (doc doc' : S3XmlDoc) (p c : ℕ) (hd : Sound doc) (hp : p < doc.nodes.length)
    (hc : c < doc.nodes.length) (h : doc.append p c = some doc') : Sound doc' := by
  rcases append_cases doc doc' p c h with ⟨hfree,hne,rfl⟩
  refine ⟨hd.linked.append p c hp hc hfree, ?_, hd.size, hd.texts, hd.denoted, hd.rnode⟩
  exact (Function.update_of_ne hne.symm _ _).trans hd.top

theorem sound_create (memory : StringMemory) (rootNode value : Bytes) :
    Sound (S3XmlDoc.create memory rootNode value) := by
  have hempty : Linked ⟨fun _ => none,fun _ => []⟩ 3 := by
    constructor
    · intro n c
      exact iff_of_false List.not_mem_nil (by simp)
    · intro n c hc
      exact absurd hc (by simp)
  have hone := hempty.append 0 1 (by decide) (by decide) rfl
  refine ⟨hone.append 0 2 (by decide) (by decide) rfl, rfl, Nat.succ_pos _, ?_, ?_, Nat.lt_succ_self _⟩
  · intro node hnode
    simp only [S3XmlDoc.create, newString, List.mem_cons, List.not_mem_nil, or_false] at hnode
    rcases hnode with rfl | rfl | rfl <;> simp [S3XmlDoc.create, newString]
  · intro handle hh
    exact absurd hh List.not_mem_nil

theorem Sound.allocateNode (memory : StringMemory) (doc : S3XmlDoc) (name value : Bytes)
    (hd : Sound doc) : Sound (doc.allocateNode memory name value) := by
  have hlen : (doc.allocateNode memory name value).nodes.length = doc.nodes.length+1 := by
    simp [S3XmlDoc.allocateNode]
  refine ⟨?_, hd.top, ?_, ?_, ?_, ?_⟩
  · rw [hlen]
    exact hd.linked.mono _ (Nat.le_succ _)
  · rw [hlen]
    exact Nat.succ_pos _
  · intro node hnode
    simp only [S3XmlDoc.allocateNode, newString, List.length_append, List.length_singleton] at hnode ⊢
    rcases List.mem_append.mp hnode with hold | hnew
    · have := hd.texts node hold
      omega
    · obtain rfl := List.mem_singleton.mp hnew
      exact ⟨Nat.lt_succ_self _, Nat.lt_succ_self _⟩
  · intro handle hh n hn
    rw [hlen]
    rcases List.mem_append.mp hh with hold | hnew
    · exact (hd.denoted handle hold n hn).trans (Nat.lt_succ_self _)
    · obtain rfl := List.mem_singleton.mp hnew
      rw [← Option.some.inj hn]
      exact Nat.lt_succ_self _
  · rw [hlen]
    exact hd.rnode.trans (Nat.lt_succ_self _)

theorem Sound.newHandle (memory : StringMemory) (doc : S3XmlDoc) (hd : Sound doc) :
    Sound (doc.newHandle memory) := by
  refine ⟨hd.linked, hd.top, hd.size, ?_, ?_, hd.rnode⟩
  · intro node hnode
    have hold := hd.texts node hnode
    simp only [S3XmlDoc.newHandle, newString, List.length_append, List.length_singleton]
    omega
  · intro handle hh n hn
    rcases List.mem_append.mp hh with hold | hnew
    · exact hd.denoted handle hold n hn
    · obtain rfl := List.mem_singleton.mp hnew
      exact absurd hn (by simp)

/-- What a lookup does to the handle that it writes to. -/
theorem setHandle_cases (memory : StringMemory) (doc doc' : S3XmlDoc) (h n : ℕ) (name : Option Bytes)
    (hs : doc.setHandle memory h name n = some doc') :
    ∃ handle text names newName values newValue, doc.handles[h]? = some handle ∧
      doc.valueOf n = some text ∧
      ((name = none ∧ names = doc.names) ∨
        ∃ s, name = some s ∧ assign memory doc.names handle.name s = some (names,newName)) ∧
      assign memory doc.values handle.value text = some (values,newValue) ∧
      doc' = { doc with
        names := names
        values := values
        handles := doc.handles.set h
          { handle with name := newName, value := newValue, repNode := some n } } := by
  unfold S3XmlDoc.setHandle at hs
  rcases Option.bind_eq_some_iff.mp hs with ⟨handle,hh,hs⟩
  rcases Option.bind_eq_some_iff.mp hs with ⟨⟨names,newName⟩,hnames,hs⟩
  rcases Option.bind_eq_some_iff.mp hs with ⟨text,htext,hs⟩
  rcases Option.bind_eq_some_iff.mp hs with ⟨⟨values,newValue⟩,hvalues,hs⟩
  refine ⟨handle, text, names, newName, values, newValue, hh, htext, ?_, hvalues,
    (Option.some.inj hs).symm⟩
  cases name with
  | none => exact Or.inl ⟨rfl, (Prod.mk.inj (Option.some.inj hnames)).1.symm⟩
  | some s => exact Or.inr ⟨s, rfl, hnames⟩

theorem valueOf_lt (doc : S3XmlDoc) (n : ℕ) (text : Bytes) (h : doc.valueOf n = some text) :
    n < doc.nodes.length := by
  rcases Option.bind_eq_some_iff.mp h with ⟨node,hnode,-⟩
  exact (List.getElem?_eq_some_iff.mp hnode).1

theorem Sound.setHandle (memory : StringMemory) (doc doc' : S3XmlDoc) (h n : ℕ) (name : Option Bytes)
    (hd : Sound doc) (hs : doc.setHandle memory h name n = some doc') : Sound doc' := by
  rcases setHandle_cases memory doc doc' h n name hs with
    ⟨handle,text,names,newName,values,newValue,hh,htext,hnames,hvalues,rfl⟩
  refine ⟨hd.linked, hd.top, hd.size, ?_, ?_, hd.rnode⟩
  · intro node hnode
    have hold := hd.texts node hnode
    have hv := assign_length memory _ _ _ _ _ hvalues
    have hn : doc.names.length ≤ names.length := by
      rcases hnames with ⟨-,rfl⟩ | ⟨s,-,hs⟩
      · exact Nat.le_refl _
      · exact assign_length memory _ _ _ _ _ hs
    exact ⟨hold.1.trans_le hn, hold.2.trans_le hv⟩
  · intro x hx k hk
    rcases List.mem_or_eq_of_mem_set hx with hold | rfl
    · exact hd.denoted x hold k hk
    · rw [← Option.some.inj hk]
      exact valueOf_lt doc n text htext

theorem denote_cases (memory : StringMemory) (doc doc' : S3XmlDoc) (h : ℕ) (name : Option Bytes)
    (found : Option ℕ) (b : Bool) (hs : doc.denote memory h name found = some (doc',b)) :
    (found = none ∧ doc' = doc) ∨ ∃ n, found = some n ∧ doc.setHandle memory h name n = some doc' := by
  cases found with
  | none => exact Or.inl ⟨rfl, (Prod.mk.inj (Option.some.inj hs)).1.symm⟩
  | some n =>
    rcases Option.map_eq_some_iff.mp hs with ⟨doc1,hdoc,he⟩
    obtain ⟨rfl,-⟩ := Prod.mk.inj he
    exact Or.inr ⟨n, rfl, hdoc⟩

/-- The lookup that finds a node: the handle that it writes to, the name that it assigns if any, and
the node. -/
def S3XmlDoc.target (xml : Rapidxml) (doc : S3XmlDoc) : Op → Option (ℕ × Option Bytes × ℕ)
  | .docFindFirstNode name firstNode =>
    (doc.firstNode xml 0 name).join.map fun n => (firstNode,some name,n)
  | .findFirstNode node name firstNode =>
    ((doc.repNode node).bind fun p => (doc.firstNode xml p name).join).map fun n =>
      (firstNode,some name,n)
  | .nextSibling node =>
    ((doc.repNode node).bind fun n => (doc.siblingName node).bind fun name =>
      (doc.nextNode xml n name).join).map fun n => (node,none,n)
  | _ => none

def Op.isLookup : Op → Bool
  | .docFindFirstNode _ _ | .findFirstNode _ _ _ | .nextSibling _ => true
  | _ => false

/-- A lookup leaves everything as it is, or it makes its handle denote the node that it found. -/
theorem lookup_cases (memory : StringMemory) (xml : Rapidxml) (doc doc' : S3XmlDoc) (op : Op) (b : Bool)
    (hop : op.isLookup = true) (hs : doc.step memory xml op = some (doc',b)) :
    (doc.target xml op = none ∧ doc' = doc) ∨
      ∃ h name n, doc.target xml op = some (h,name,n) ∧ doc.setHandle memory h name n = some doc' := by
  -- all three lookups end in `denote`, two with a name and one without
  have hdenote (h : ℕ) (name : Option Bytes) (found : Option ℕ)
      (hd : doc.denote memory h name found = some (doc',b))
      (htarget : doc.target xml op = found.map fun n => (h,name,n)) :
      (doc.target xml op = none ∧ doc' = doc) ∨ ∃ h name n, doc.target xml op = some (h,name,n) ∧
        doc.setHandle memory h name n = some doc' := by
    rw [htarget]
    rcases denote_cases memory doc doc' h name found b hd with ⟨rfl,rfl⟩ | ⟨n,rfl,hset⟩
    · exact Or.inl ⟨rfl,rfl⟩
    · exact Or.inr ⟨h, name, n, rfl, hset⟩
  cases op with
  | docFindFirstNode name firstNode =>
    rcases Option.bind_eq_some_iff.mp hs with ⟨found,hfound,hd⟩
    refine hdenote firstNode (some name) found hd ?_
    rw [S3XmlDoc.target, hfound]
    rfl
  | findFirstNode node name firstNode =>
    rcases Option.bind_eq_some_iff.mp hs with ⟨p,hp,hs⟩
    rcases Option.bind_eq_some_iff.mp hs with ⟨found,hfound,hd⟩
    refine hdenote firstNode (some name) found hd ?_
    rw [S3XmlDoc.target, hp, Option.bind_some, hfound]
    rfl
  | nextSibling node =>
    rcases Option.bind_eq_some_iff.mp hs with ⟨m,hm,hs⟩
    rcases Option.bind_eq_some_iff.mp hs with ⟨name,hname,hs⟩
    rcases Option.bind_eq_some_iff.mp hs with ⟨found,hfound,hd⟩
    refine hdenote node none found hd ?_
    rw [S3XmlDoc.target, hm, Option.bind_some, hname, Option.bind_some, hfound]
    rfl
  | _ => exact absurd hop (by simp [Op.isLookup])

/-- The document with one more node of a text, attached under `parent`. -/
theorem Sound.attachOne (doc : S3XmlDoc) (p : ParsedNode) (parent : ℕ) (hd : Sound doc)
    (hp : parent < doc.nodes.length) :
    Sound { doc with
      names := doc.names ++ [some (p.name ++ [0])]
      values := doc.values ++ [some (p.value ++ [0])]
      nodes := doc.nodes ++
        [⟨p.type,⟨doc.names.length,p.name.length⟩,⟨doc.values.length,p.value.length⟩,p.attributes⟩]
      links := doc.links.append parent doc.nodes.length } := by
  have hfree : doc.links.parent doc.nodes.length = none := by
    by_contra hsome
    rcases Option.ne_none_iff_exists'.mp hsome with ⟨n,hn⟩
    exact absurd (hd.linked.bound n _ hn).2 (Nat.lt_irrefl _)
  constructor
  · rw [List.length_append, List.length_singleton]
    exact (hd.linked.mono _ (Nat.le_succ _)).append parent _ (hp.trans (Nat.lt_succ_self _))
      (Nat.lt_succ_self _) hfree
  · exact (Function.update_of_ne (Nat.ne_of_lt hd.size) _ _).trans hd.top
  · rw [List.length_append, List.length_singleton]
    exact Nat.succ_pos _
  · intro node hnode
    simp only [List.length_append, List.length_singleton]
    rcases List.mem_append.mp hnode with hold | hnew
    · have := hd.texts node hold
      omega
    · obtain rfl := List.mem_singleton.mp hnew
      exact ⟨Nat.lt_succ_self _, Nat.lt_succ_self _⟩
  · intro handle hh n hn
    rw [List.length_append, List.length_singleton]
    exact (hd.denoted handle hh n hn).trans (Nat.lt_succ_self _)
  · rw [List.length_append, List.length_singleton]
    exact hd.rnode.trans (Nat.lt_succ_self _)

theorem Sound.attach (base : ℕ) (doc : S3XmlDoc) (ps : List ParsedNode) (hd : Sound doc) :
    Sound (S3XmlDoc.attach base doc ps) := by
  induction ps generalizing doc with
  | nil => exact hd
  | cons p ps ih =>
    unfold S3XmlDoc.attach
    dsimp only
    apply ih
    apply hd.attachOne doc p
    cases p.parent with
    | none => exact hd.size
    | some k =>
      dsimp only
      split_ifs with hk
      · exact hk
      · exact hd.size

theorem Sound.parseFromString (xml : Rapidxml) (doc : S3XmlDoc) (s : Bytes) (hd : Sound doc) :
    Sound (doc.parseFromString xml s).1 := by
  apply Sound.attach
  refine ⟨hd.linked.removeAll 0, ?_, hd.size, hd.texts, hd.denoted, hd.rnode⟩
  unfold Links.removeAll
  dsimp only
  split_ifs
  · rfl
  · exact hd.top

theorem appendNode_cases (memory : StringMemory) (doc doc' : S3XmlDoc) (node : ℕ) (name value : Bytes)
    (h : doc.appendNode memory node name value = some doc') :
    ∃ handle p, doc.handles[node]? = some handle ∧ handle.repNode = some p ∧ handle.hasDoc = true ∧
      (doc.allocateNode memory name value).appendHandle node doc.handles.length = some doc' := by
  rcases Option.bind_eq_some_iff.mp h with ⟨handle,hh,h⟩
  rcases Option.bind_eq_some_iff.mp h with ⟨p,hp,h⟩
  split_ifs at h with hdoc
  exact ⟨handle, p, hh, hp, hdoc, h⟩

/-- What an operation other than `ParseFromString` can do. A node is appended to the root or to the
node of a handle, and it is the node of a handle itself. -/
inductive Change (memory : StringMemory) (doc : S3XmlDoc) : S3XmlDoc → Prop
  | same : Change memory doc doc
  | newHandle : Change memory doc (doc.newHandle memory)
  | allocate (name value : Bytes) : Change memory doc (doc.allocateNode memory name value)
  | append (doc1 doc' : S3XmlDoc) (p c h : ℕ)
      (hdoc : doc1 = doc ∨ ∃ name value, doc1 = doc.allocateNode memory name value)
      (hp : p = doc1.rnode ∨ ∃ k, doc1.repNode k = some p) (hc : doc1.repNode h = some c)
      (happend : doc1.append p c = some doc') : Change memory doc doc'
  | lookup (doc' : S3XmlDoc) (h n : ℕ) (name : Option Bytes)
      (hset : doc.setHandle memory h name n = some doc') : Change memory doc doc'

theorem change_of_toRoot (memory : StringMemory) (doc doc1 doc' : S3XmlDoc) (node : ℕ)
    (hdoc : doc1 = doc ∨ ∃ name value, doc1 = doc.allocateNode memory name value)
    (h : doc1.appendHandleToRoot node = some doc') : Change memory doc doc' := by
  rcases Option.bind_eq_some_iff.mp h with ⟨c,hc,happend⟩
  exact .append doc1 doc' doc1.rnode c node hdoc (Or.inl rfl) hc happend

theorem change_of_toHandle (memory : StringMemory) (doc doc1 doc' : S3XmlDoc) (node newNode : ℕ)
    (hdoc : doc1 = doc ∨ ∃ name value, doc1 = doc.allocateNode memory name value)
    (h : doc1.appendHandle node newNode = some doc') : Change memory doc doc' := by
  rcases Option.bind_eq_some_iff.mp h with ⟨p,hp,hrest⟩
  rcases Option.bind_eq_some_iff.mp hrest with ⟨c,hc,happend⟩
  exact .append doc1 doc' p c newNode hdoc (Or.inr ⟨node,hp⟩) hc happend

theorem step_cases (memory : StringMemory) (xml : Rapidxml) (doc doc' : S3XmlDoc) (op : Op) (b : Bool)
    (h : doc.step memory xml op = some (doc',b)) :
    Change memory doc doc' ∨ ∃ s, op = .parseFromString s ∧ doc' = (doc.parseFromString xml s).1 := by
  -- the three lookups end alike
  have hlookup (hop : op.isLookup = true) : Change memory doc doc' := by
    rcases lookup_cases memory xml doc doc' op b hop h with ⟨-,rfl⟩ | ⟨i,name,n,-,hset⟩
    · exact .same
    · exact .lookup doc' i n name hset
  cases op with
  | newHandle =>
    obtain ⟨rfl,-⟩ := Prod.mk.inj (Option.some.inj h)
    exact Or.inl .newHandle
  | allocateNode name value =>
    obtain ⟨rfl,-⟩ := Prod.mk.inj (Option.some.inj h)
    exact Or.inl (.allocate name value)
  | appendToRoot name value =>
    rcases Option.map_eq_some_iff.mp h with ⟨doc1,happend,he⟩
    obtain ⟨rfl,-⟩ := Prod.mk.inj he
    exact Or.inl (change_of_toRoot memory doc _ _ _ (Or.inr ⟨name,value,rfl⟩) happend)
  | appendHandleToRoot node =>
    rcases Option.map_eq_some_iff.mp h with ⟨doc1,happend,he⟩
    obtain ⟨rfl,-⟩ := Prod.mk.inj he
    exact Or.inl (change_of_toRoot memory doc doc _ node (Or.inl rfl) happend)
  | appendHandle node newNode =>
    rcases Option.map_eq_some_iff.mp h with ⟨doc1,happend,he⟩
    obtain ⟨rfl,-⟩ := Prod.mk.inj he
    exact Or.inl (change_of_toHandle memory doc doc _ node newNode (Or.inl rfl) happend)
  | appendNode node name value =>
    rcases Option.map_eq_some_iff.mp h with ⟨doc1,happend,he⟩
    obtain ⟨rfl,-⟩ := Prod.mk.inj he
    rcases appendNode_cases memory doc _ node name value happend with ⟨handle,p,-,-,-,hlast⟩
    exact Or.inl (change_of_toHandle memory doc _ _ _ _ (Or.inr ⟨name,value,rfl⟩) hlast)
  | parseFromString s => exact Or.inr ⟨s, rfl, (Prod.mk.inj (Option.some.inj h)).1.symm⟩
  | _ => exact Or.inl (hlookup rfl)

theorem Sound.change (memory : StringMemory) (doc doc' : S3XmlDoc) (hd : Sound doc)
    (h : Change memory doc doc') : Sound doc' := by
  cases h with
  | same => exact hd
  | newHandle => exact hd.newHandle memory doc
  | allocate name value => exact hd.allocateNode memory doc name value
  | append doc1 _ p c k hdoc hp hc happend =>
    have hd1 : Sound doc1 := by
      rcases hdoc with rfl | ⟨name,value,rfl⟩
      · exact hd
      · exact hd.allocateNode memory doc name value
    have hlt : p < doc1.nodes.length := by
      rcases hp with rfl | ⟨i,hi⟩
      · exact hd1.rnode
      · exact hd1.node_lt doc1 i p hi
    exact hd1.append doc1 doc' p c hlt (hd1.node_lt doc1 k c hc) happend
  | lookup _ i n name hset => exact hd.setHandle memory doc doc' i n name hset

theorem Sound.step (memory : StringMemory) (xml : Rapidxml) (doc doc' : S3XmlDoc) (op : Op) (b : Bool)
    (hd : Sound doc) (h : doc.step memory xml op = some (doc',b)) : Sound doc' := by
  rcases step_cases memory xml doc doc' op b h with hchange | ⟨s,-,rfl⟩
  · exact hd.change memory doc doc' hchange
  · exact hd.parseFromString xml doc s

/-- Every document that a program builds is sound. -/
theorem Sound.run (memory : StringMemory) (xml : Rapidxml) (doc doc' : S3XmlDoc) (es : List Op)
    (hd : Sound doc) (h : es.foldlM (S3XmlDoc.move memory xml) doc = some doc') : Sound doc' := by
  apply (GuardedRun.of_foldlM doc doc' es h).invariant Sound ?_ doc doc' es hd
  intro a op b ha _ hb
  rcases Option.map_eq_some_iff.mp hb with ⟨r,hr,rfl⟩
  exact ha.step memory xml a r.1 op r.2 hr

/-- `print` comes to an end. -/
theorem Sound.printed (doc : S3XmlDoc) (hd : Sound doc) : ∃ tokens, doc.printed = some tokens :=
  walk_total doc.token 0 hd.linked hd.top hd.size

end Cclab.S3Xml
