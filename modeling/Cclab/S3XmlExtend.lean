import Cclab.S3XmlRoot
import Mathlib.Data.List.TakeWhile

/-! Which handles `AppendNode` can extend: `AllocateNode` sets `doc_`, and the lookups that
make a handle denote a node leave it. -/
namespace Cclab.S3Xml
open LinkedTree OperationRuns

/-- `AppendNode` makes a new last child of `p` with this name and this value. -/
def MakesLastChild (memory : StringMemory) (xml : Rapidxml) (doc : S3XmlDoc) (h p : ℕ)
    (name value : Bytes) : Prop :=
  ∃ doc' child, doc.step memory xml (.appendNode h name value) = some (doc',true) ∧
    doc.nodes[child]? = none ∧ doc'.links.parent child = some p ∧
    doc'.links.children p = doc.links.children p ++ [child] ∧
    doc'.token child = ⟨.element,some name,some value,[]⟩

theorem cString_eq_iff (text : Bytes) : cString text = text ↔ 0 ∉ text := by
  unfold cString
  rw [List.takeWhile_eq_self_iff]
  constructor
  · intro h hmem
    exact absurd (h 0 hmem) (by decide)
  · intro h x hx
    rw [decide_eq_true_iff]
    rintro rfl
    exact h hx

/-! `doc_` of a handle is what it was when the handle was made. -/

/-- `doc_` of the handle `h` is set, or it is null. -/
def DocField (doc : S3XmlDoc) (h : ℕ) (b : Bool) : Prop :=
  (doc.handles[h]?).map S3XmlNode.hasDoc = some b

section docField
variable (memory : StringMemory)

theorem DocField.new (doc doc' : S3XmlDoc) (h : ℕ) (b : Bool) (handle : S3XmlNode)
    (hb : DocField doc h b) (he : doc'.handles = doc.handles ++ [handle]) : DocField doc' h b := by
  unfold DocField at hb ⊢
  rcases Option.map_eq_some_iff.mp hb with ⟨old,hold,-⟩
  rw [he, List.getElem?_append_left (List.getElem?_eq_some_iff.mp hold).1]
  exact hb

/-- A lookup makes its handle denote another node and leaves `doc_`. -/
theorem DocField.setHandle (doc doc' : S3XmlDoc) (h i n : ℕ) (name : Option Bytes) (b : Bool)
    (hb : DocField doc h b) (hs : doc.setHandle memory i name n = some doc') : DocField doc' h b := by
  rcases setHandle_cases memory doc doc' i n name hs with ⟨handle,_,_,_,_,_,hi,-,-,-,rfl⟩
  unfold DocField at hb ⊢
  dsimp only
  by_cases hne : i = h
  · subst hne
    rw [List.getElem?_set_self (List.getElem?_eq_some_iff.mp hi).1]
    rw [hi] at hb
    exact hb
  · rw [List.getElem?_set_ne hne]
    exact hb

theorem DocField.change (doc doc' : S3XmlDoc) (h : ℕ) (b : Bool) (hb : DocField doc h b)
    (hc : Change memory doc doc') : DocField doc' h b := by
  cases hc with
  | same => exact hb
  | newHandle => exact hb.new doc _ h b _ rfl
  | allocate name value => exact hb.new doc _ h b _ rfl
  | append doc1 _ p c k hdoc hp hk happend =>
    rcases append_cases doc1 doc' p c happend with ⟨-,-,rfl⟩
    rcases hdoc with rfl | ⟨name,value,rfl⟩
    · exact hb
    · exact hb.new doc _ h b _ rfl
  | lookup _ i n name hset => exact hb.setHandle memory doc doc' h i n name b hset

theorem attach_handles (base : ℕ) (doc : S3XmlDoc) (ps : List ParsedNode) :
    (S3XmlDoc.attach base doc ps).handles = doc.handles := by
  induction ps generalizing doc with
  | nil => rfl
  | cons p ps ih => exact ih _

/-- No operation changes `doc_` of a handle that exists. -/
theorem DocField.run (xml : Rapidxml) (doc doc' : S3XmlDoc) (es : List Op) (h : ℕ) (b : Bool)
    (hb : DocField doc h b) (hrun : es.foldlM (S3XmlDoc.move memory xml) doc = some doc') :
    DocField doc' h b := by
  apply (GuardedRun.of_foldlM doc doc' es hrun).invariant (fun d => DocField d h b) ?_ doc doc' es hb
  intro a op c ha _ hc
  rcases Option.map_eq_some_iff.mp hc with ⟨⟨d,r⟩,hr,rfl⟩
  rcases step_cases memory xml a d op r hr with hchange | ⟨s,-,rfl⟩
  · exact ha.change memory a d h b hchange
  · unfold DocField
    dsimp only
    rw [S3XmlDoc.parseFromString, attach_handles]
    exact ha

end docField

section extend
variable (memory : StringMemory) (doc : S3XmlDoc) (h p : ℕ) (handle : S3XmlNode)
  (hh : doc.handles[h]? = some handle) (hp : handle.repNode = some p) (name value : Bytes)
include hh hp

theorem appendNode_null (hdoc : handle.hasDoc = false) :
    doc.appendNode memory h name value = none := by
  simp only [S3XmlDoc.appendNode, hh, hp, hdoc, Option.bind_eq_bind, Option.bind_some,
    Bool.false_eq_true, if_false]

/-- A handle with a document gets one more child, the node that was allocated for it. -/
theorem appendNode_eq (hd : Sound doc) (hdoc : handle.hasDoc = true) :
    doc.appendNode memory h name value = some { doc.allocateNode memory name value with
      links := doc.links.append p doc.nodes.length } := by
  have hold : (doc.allocateNode memory name value).repNode h = some p := by
    have hlt := (List.getElem?_eq_some_iff.mp hh).1
    unfold S3XmlDoc.repNode S3XmlDoc.allocateNode
    dsimp only
    rw [List.getElem?_append_left hlt, hh]
    exact hp
  have hfree : doc.links.parent doc.nodes.length = none := by
    by_contra hsome
    rcases Option.ne_none_iff_exists'.mp hsome with ⟨n,hn⟩
    exact absurd (hd.linked.bound n _ hn).2 (Nat.lt_irrefl _)
  have happend : (doc.allocateNode memory name value).append p doc.nodes.length =
      some { doc.allocateNode memory name value with
        links := doc.links.append p doc.nodes.length } :=
    if_pos ⟨hfree, Nat.ne_of_gt hd.size⟩
  simp only [S3XmlDoc.appendNode, S3XmlDoc.appendHandle, hh, hp, hdoc, hold,
    repNode_allocated memory doc name value, happend, Option.bind_eq_bind, Option.bind_some, if_true]

end extend

/-- In every document that a program builds, a handle that denotes a node can be extended if and
only if it was made with a document, and then by texts without a 0 exactly as they are. -/
theorem appendNode_extends_iff (memory : StringMemory) (xml : Rapidxml) (rootNode rootValue : Bytes)
    (es : List Op) (doc : S3XmlDoc) (h p : ℕ) (handle : S3XmlNode) (name value : Bytes)
    (hrun : es.foldlM (S3XmlDoc.move memory xml) (S3XmlDoc.create memory rootNode rootValue) =
      some doc)
    (hh : doc.handles[h]? = some handle) (hp : handle.repNode = some p) :
    MakesLastChild memory xml doc h p name value ↔
      handle.hasDoc = true ∧ 0 ∉ name ∧ 0 ∉ value := by
  have hd := (sound_create memory rootNode rootValue).run memory xml _ doc es hrun
  by_cases hdoc : handle.hasDoc = true
  · have hnode := appendNode_eq memory doc h p handle hh hp name value hd hdoc
    have htoken (links : Links) :
        S3XmlDoc.token { doc.allocateNode memory name value with links := links } doc.nodes.length =
          ⟨.element,some (cString name),some (cString value),[]⟩ :=
      token_allocated memory doc name value
    constructor
    · rintro ⟨doc',child,hstep,hnew,-,hchildren,hshown⟩
      rcases Option.map_eq_some_iff.mp hstep with ⟨doc1,hcall,he⟩
      obtain ⟨rfl,-⟩ := Prod.mk.inj he
      obtain rfl := Option.some.inj (hnode.symm.trans hcall)
      -- the last child is the node that was allocated
      rw [children_append_self] at hchildren
      obtain rfl := List.singleton_inj.mp (List.append_cancel_left hchildren)
      rw [htoken, Token.mk.injEq, Option.some.injEq, Option.some.injEq] at hshown
      exact ⟨hdoc, (cString_eq_iff name).mp hshown.2.1, (cString_eq_iff value).mp hshown.2.2.1⟩
    · rintro ⟨-,hname,hvalue⟩
      refine ⟨_, doc.nodes.length, congrArg (Option.map _) hnode, ?_, ?_, ?_, ?_⟩
      · exact List.getElem?_eq_none (Nat.le_refl _)
      · exact Function.update_self _ _ _
      · exact children_append_self p _
      · rw [htoken, (cString_eq_iff name).mpr hname, (cString_eq_iff value).mpr hvalue]
  · rw [Bool.not_eq_true] at hdoc
    constructor
    · rintro ⟨doc',child,hstep,-⟩
      have hnone := appendNode_null memory doc h p handle hh hp name value hdoc
      rw [S3XmlDoc.step, hnone] at hstep
      exact absurd hstep (by simp)
    · rintro ⟨htrue,-⟩
      rw [hdoc] at htrue
      exact absurd htrue (by simp)

theorem appendNode_extends_iff_item : ∃ doc,
    [Op.allocateNode (ascii "a") []].foldlM (S3XmlDoc.move shortStrings elementsXml)
      (S3XmlDoc.create shortStrings (ascii "r") []) = some doc ∧
    MakesLastChild shortStrings elementsXml doc 0 3 (ascii "b") (ascii "1") := by
  refine ⟨_, rfl, ?_⟩
  exact (appendNode_extends_iff shortStrings elementsXml (ascii "r") [] [.allocateNode (ascii "a") []]
    _ 0 3 _ (ascii "b") (ascii "1") rfl rfl rfl).mpr ⟨rfl,by decide,by decide⟩

/-- A handle that was looked up denotes the root, and `AppendNode` dereferences its null
document. -/
theorem looked_up_handle_not_extended : ∃ doc,
    [Op.newHandle, .docFindFirstNode (ascii "r") 0].foldlM (S3XmlDoc.move shortStrings elementsXml)
      (S3XmlDoc.create shortStrings (ascii "r") []) = some doc ∧
    doc.repNode 0 = some 2 ∧
    doc.step shortStrings elementsXml (.appendNode 0 (ascii "a") []) = none ∧
    ¬ MakesLastChild shortStrings elementsXml doc 0 2 (ascii "a") [] := by
  have hnone (doc : S3XmlDoc)
      (h : doc.step shortStrings elementsXml (.appendNode 0 (ascii "a") []) = none) :
      ¬ MakesLastChild shortStrings elementsXml doc 0 2 (ascii "a") [] := by
    rintro ⟨doc',child,hstep,-⟩
    rw [h] at hstep
    exact absurd hstep (by simp)
  refine ⟨_, rfl, by decide +kernel, rfl, hnone _ rfl⟩

end Cclab.S3Xml
