import Cclab.S3XmlSound

/-! Whether navigating a document changes it. The strings of a handle from `AllocateNode` are those
that its node shows, and a lookup assigns to the strings of its handle. -/
namespace Cclab.S3Xml
open LinkedTree OperationRuns

/-- If `t` points into the string, an assignment of this text leaves the string in its place and
leaves the characters that `t` shows as they are. -/
def Kept (memory : StringMemory) (heap : Buffers) (t : Text) (s : CppString) (text : Bytes) : Prop :=
  t.buffer = s.buffer → ∀ old, cells heap s.buffer = some old →
    memory.inPlace (old.length-1) text.length = true ∧
      (text ++ 0 :: old.drop (text.length+1)).take t.length = old.take t.length

/-- A lookup that finds a node assigns to no string that an attached node shows, unless what the
node shows stays as it is. -/
def Unseen (memory : StringMemory) (xml : Rapidxml) (doc : S3XmlDoc) (op : Op) : Prop :=
  ∀ h name n, doc.target xml op = some (h,name,n) →
    ∀ handle value, doc.handles[h]? = some handle → doc.valueOf n = some value →
      ∀ k node, Below doc.links 0 k → doc.nodes[k]? = some node →
        (∀ s, name = some s → Kept memory doc.names node.name handle.name s) ∧
          Kept memory doc.values node.value handle.value value

theorem cells_set (heap : Buffers) (i j : ℕ) (x : Option Bytes) (h : j ≠ i) :
    cells (heap.set i x) j = cells heap j := by
  unfold cells
  rw [List.getElem?_set_ne h.symm]

theorem cells_append (heap new : Buffers) (j : ℕ) (h : j < heap.length) :
    cells (heap ++ new) j = cells heap j := by
  unfold cells
  rw [List.getElem?_append_left h]

theorem cells_lt (heap : Buffers) (j : ℕ) (cs : Bytes) (h : cells heap j = some cs) :
    j < heap.length := by
  by_contra hge
  unfold cells at h
  rw [List.getElem?_eq_none (Nat.le_of_not_lt hge)] at h
  exact absurd h (by simp)

/-- An assignment leaves what a node shows of a string exactly if it keeps it: memory that was freed
shows nothing. -/
theorem shown_assign_iff (memory : StringMemory) (heap heap' : Buffers) (s s' : CppString) (text : Bytes)
    (t : Text) (ht : t.buffer < heap.length) (h : assign memory heap s text = some (heap',s')) :
    shown heap' t = shown heap t ↔ Kept memory heap t s text := by
  rcases assign_cases memory heap heap' s s' text h with ⟨old,hold,hcase⟩
  have hlt := cells_lt heap s.buffer old hold
  by_cases hsame : t.buffer = s.buffer
  -- the node points into this very string
  · have hkept : Kept memory heap t s text ↔ memory.inPlace (old.length-1) text.length = true ∧
        (text ++ 0 :: old.drop (text.length+1)).take t.length = old.take t.length := by
      constructor
      · exact fun hk => hk hsame old hold
      · intro hk _ old' hold'
        rwa [← Option.some.inj (hold.symm.trans hold')]
    unfold shown
    rw [hkept, hsame, hold, Option.map_some]
    -- the text was overwritten in place, or its memory is gone
    rcases hcase with ⟨hplace,rfl⟩ | ⟨hmoved,new,rfl⟩
    · have hnew : cells (heap.set s.buffer (some (text ++ 0 :: old.drop (text.length+1)))) s.buffer =
          some (text ++ 0 :: old.drop (text.length+1)) := by
        unfold cells
        rw [List.getElem?_set_self hlt]
        rfl
      rw [hnew, Option.map_some, Option.some.injEq]
      exact (and_iff_right hplace).symm
    · have hfreed : cells (heap.set s.buffer none ++ [new]) s.buffer = none := by
        rw [cells_append _ _ _ (by rwa [List.length_set])]
        unfold cells
        rw [List.getElem?_set_self hlt]
        rfl
      rw [hfreed, hmoved]
      simp
  -- another string is neither written nor freed
  · refine iff_of_true ?_ (fun he => absurd he hsame)
    unfold shown
    rcases hcase with ⟨-,rfl⟩ | ⟨-,new,rfl⟩
    · rw [cells_set heap s.buffer t.buffer _ hsame]
    · rw [cells_append _ _ _ (by rwa [List.length_set]), cells_set heap s.buffer t.buffer _ hsame]

/-- What a lookup that finds a node leaves of one that is printed. -/
theorem token_setHandle_iff (memory : StringMemory) (doc doc' : S3XmlDoc) (h n k : ℕ)
    (name : Option Bytes) (handle : S3XmlNode) (value : Bytes) (node : Node) (hd : Sound doc)
    (hs : doc.setHandle memory h name n = some doc') (hh : doc.handles[h]? = some handle)
    (hv : doc.valueOf n = some value) (hk : doc.nodes[k]? = some node) :
    doc'.token k = doc.token k ↔ (∀ s, name = some s → Kept memory doc.names node.name handle.name s) ∧
      Kept memory doc.values node.value handle.value value := by
  rcases setHandle_cases memory doc doc' h n name hs with
    ⟨handle',text,names,newName,values,newValue,hh',htext,hnames,hvalues,rfl⟩
  obtain rfl := Option.some.inj (hh.symm.trans hh')
  obtain rfl := Option.some.inj (hv.symm.trans htext)
  have htexts := hd.texts node (List.mem_of_getElem? hk)
  have hvalue := shown_assign_iff memory _ _ _ _ _ node.value htexts.2 hvalues
  -- the name of the handle is assigned only by the lookups that are given one
  have hname : shown names node.name = shown doc.names node.name ↔
      ∀ s, name = some s → Kept memory doc.names node.name handle.name s := by
    rcases hnames with ⟨rfl,rfl⟩ | ⟨s,rfl,hassign⟩
    · exact iff_of_true rfl (by simp)
    · rw [shown_assign_iff memory _ _ _ _ _ node.name htexts.1 hassign]
      simp
  unfold S3XmlDoc.token
  dsimp only
  rw [hk, ← hname, ← hvalue]
  simp

/-- A lookup leaves what is printed exactly if it is unseen. -/
theorem lookup_printed_iff (memory : StringMemory) (xml : Rapidxml) (doc doc' : S3XmlDoc) (op : Op)
    (hd : Sound doc) (hop : op.isLookup = true) (h : doc.move memory xml op = some doc') :
    doc'.printed = doc.printed ↔ Unseen memory xml doc op := by
  rcases Option.map_eq_some_iff.mp h with ⟨⟨doc1,b⟩,hstep,rfl⟩
  rcases lookup_cases memory xml doc doc1 op b hop hstep with ⟨hnone,rfl⟩ | ⟨i,name,n,htarget,hset⟩
  · refine iff_of_true rfl ?_
    intro i name n htarget
    rw [hnone] at htarget
    exact absurd htarget (by simp)
  rcases setHandle_cases memory doc doc1 i n name hset with
    ⟨handle,text,_,_,_,_,hh,htext,-,-,hdoc⟩
  -- the tree is the same, so only the labels of its nodes can differ
  have hlinks : doc1.links = doc.links ∧ doc1.nodes.length = doc.nodes.length := by
    rw [hdoc]
    exact ⟨rfl,rfl⟩
  rcases walk_total id 0 hd.linked hd.top hd.size with ⟨nodes,hnodes⟩
  have hlt (k : ℕ) (hk : Below doc.links 0 k) : ∃ node, doc.nodes[k]? = some node :=
    ⟨_, List.getElem?_eq_getElem (hk.lt 0 k hd.linked hd.size)⟩
  unfold S3XmlDoc.printed
  dsimp only
  rw [hlinks.1, hlinks.2, walk_eq_iff doc1.token doc.token _ 0 nodes hnodes]
  constructor
  · intro htokens i' name' n' htarget' handle' value hh' hv' k node hk hnode
    obtain ⟨rfl,hrest⟩ := Prod.mk.inj (Option.some.inj (htarget.symm.trans htarget'))
    obtain ⟨rfl,rfl⟩ := Prod.mk.inj hrest
    exact (token_setHandle_iff memory doc doc1 i n k name handle' value node hd hset hh' hv' hnode).mp
      (htokens k hk)
  · intro hunseen k hk
    rcases hlt k hk with ⟨node,hnode⟩
    exact (token_setHandle_iff memory doc doc1 i n k name handle text node hd hset hh htext hnode).mpr
      (hunseen i name n htarget handle text hh htext k node hk hnode)

/-- Every sequence of unseen lookups in a document that a program built leaves the text as it is. -/
theorem navigation_unseen (memory : StringMemory) (xml : Rapidxml) (rootNode value : Bytes)
    (es lookups : List Op) (doc doc' : S3XmlDoc)
    (h : es.foldlM (S3XmlDoc.move memory xml) (S3XmlDoc.create memory rootNode value) = some doc)
    (hl : ∀ op ∈ lookups, op.isLookup = true)
    (h' : GuardedRun (S3XmlDoc.move memory xml) (Unseen memory xml) doc lookups doc') :
    ∃ text, doc.toString xml = some text ∧ doc'.toString xml = some text := by
  have hsound := (sound_create memory rootNode value).run memory xml _ doc es h
  have hsame : Sound doc' ∧ doc'.printed = doc.printed := by
    -- each lookup of the sequence is unseen in the document that the earlier ones left
    induction h' with
    | start => exact ⟨hsound,rfl⟩
    | step as op t u hrun hok hm ih =>
      rcases ih (fun o ho => hl o (List.mem_append_left _ ho)) with ⟨ht,hprinted⟩
      have hlookup := hl op (List.mem_append_right _ (List.mem_singleton_self op))
      rcases Option.map_eq_some_iff.mp hm with ⟨r,hr,rfl⟩
      refine ⟨ht.step memory xml t r.1 op r.2 hr, ?_⟩
      rw [(lookup_printed_iff memory xml t r.1 op ht hlookup hm).mpr hok, hprinted]
  rcases hsound.printed doc with ⟨tokens,htokens⟩
  refine ⟨xml.print tokens, ?_, ?_⟩
  · rw [S3XmlDoc.toString, htokens]
    rfl
  · rw [S3XmlDoc.toString, hsame.2, htokens]
    rfl

/-- A listing with one entry, and a handle of the program's own. -/
def listing : S3XmlDoc :=
  (((S3XmlDoc.create shortStrings (ascii "r") []).appendToRoot shortStrings (ascii "a")
    (ascii "1")).get rfl).newHandle shortStrings

theorem navigation_unseen_root : ∃ doc text,
    listing.move shortStrings elementsXml (.docFindFirstNode (ascii "R") 1) = some doc ∧
    listing.toString elementsXml = some text ∧ doc.toString elementsXml = some text := by
  have hmove : ∃ doc,
      listing.move shortStrings elementsXml (.docFindFirstNode (ascii "R") 1) = some doc := by
    apply Option.isSome_iff_exists.mp
    rfl
  rcases hmove with ⟨doc,hdoc⟩
  have hunseen : Unseen shortStrings elementsXml listing (.docFindFirstNode (ascii "R") 1) := by
    intro h name n htarget handle value hhandle _ k node _ hnode
    have hresult : listing.target elementsXml (.docFindFirstNode (ascii "R") 1) =
        some (1,some (ascii "R"),2) := rfl
    rw [hresult] at htarget
    obtain ⟨rfl,-⟩ := Prod.mk.inj (Option.some.inj htarget)
    -- no node points into the strings of the handle that the lookup writes to
    have hown : ∀ node ∈ listing.nodes, node.name.buffer ≠ 4 ∧ node.value.buffer ≠ 3 := by decide
    have hhandle' : listing.handles[1]? = some ⟨⟨4,0⟩,⟨3,0⟩,false,none⟩ := rfl
    obtain rfl := Option.some.inj (hhandle'.symm.trans hhandle)
    rcases hown node (List.mem_of_getElem? hnode) with ⟨hname,hvalue⟩
    exact ⟨fun s _ hsame => absurd hsame hname, fun hsame => absurd hsame hvalue⟩
  rcases navigation_unseen shortStrings elementsXml (ascii "r") []
    [.appendToRoot (ascii "a") (ascii "1"), .newHandle] [.docFindFirstNode (ascii "R") 1] listing doc
    rfl (by simp [Op.isLookup]) (.step [] _ listing doc .start hunseen hdoc) with ⟨text,h1,h2⟩
  exact ⟨doc, text, hdoc, h1, h2⟩

/-- The first element is looked up with the handle of the second one as the result. -/
theorem lookup_renames_element : ¬ ∀ (memory : StringMemory) (xml : Rapidxml) (rootNode value : Bytes)
    (es lookups : List Op) (doc doc' : S3XmlDoc),
    es.foldlM (S3XmlDoc.move memory xml) (S3XmlDoc.create memory rootNode value) = some doc →
    (∀ op ∈ lookups, op.isLookup = true) →
    lookups.foldlM (S3XmlDoc.move memory xml) doc = some doc' →
    doc'.toString xml = doc.toString xml := by
  intro h
  let start := S3XmlDoc.create shortStrings (ascii "r") []
  let es : List Op := [.allocateNode (ascii "a") (ascii "1"), .appendHandleToRoot 0,
    .allocateNode (ascii "b") (ascii "2"), .appendHandleToRoot 1, .newHandle]
  let lookups : List Op := [.docFindFirstNode (ascii "r") 2, .findFirstNode 2 (ascii "a") 1]
  have hbefore : (es.foldlM (S3XmlDoc.move shortStrings elementsXml) start).map
      (S3XmlDoc.toString elementsXml) = some (some (ascii ("<?xml version='1.0' encoding='utf-8' ?>\n" ++
        "<r xmlns=\"http://s3.amazonaws.com/doc/2006-03-01/\">\n\t<a>1</a>\n\t<b>2</b>\n</r>\n\n"))) := by
    decide +kernel
  have hafter : ((es ++ lookups).foldlM (S3XmlDoc.move shortStrings elementsXml) start).map
      (S3XmlDoc.toString elementsXml) = some (some (ascii ("<?xml version='1.0' encoding='utf-8' ?>\n" ++
        "<r xmlns=\"http://s3.amazonaws.com/doc/2006-03-01/\">\n\t<a>1</a>\n\t<a>1</a>\n</r>\n\n"))) := by
    decide +kernel
  rcases Option.map_eq_some_iff.mp hafter with ⟨doc',hdoc',htext'⟩
  rcases foldlM_append_eq_some _ start doc' es lookups hdoc' with ⟨doc,hdoc,hlookups⟩
  have hsame := h shortStrings elementsXml (ascii "r") [] es lookups doc doc' hdoc
    (by simp [lookups, Op.isLookup]) hlookups
  rw [hdoc, Option.map_some, ← hsame, htext'] at hbefore
  exact absurd hbefore (by decide +kernel)

end Cclab.S3Xml
