import Cclab.S3XmlSound

/-! Whether `AppendToRoot` extends what is printed: `rnode_` is set in the constructor alone, while
`parse` replaces the tree below `doc_`. -/
namespace Cclab.S3Xml
open LinkedTree OperationRuns

/-- `rnode_` is an element attached to `doc_`. -/
def RootAttached (doc : S3XmlDoc) : Prop :=
  Below doc.links 0 doc.rnode ∧ ∃ node, doc.nodes[doc.rnode]? = some node ∧ node.type = .element

/-- A node is printed, with all that is below it. -/
def Appears (doc : S3XmlDoc) (n : ℕ) : Prop :=
  ∃ fuel part tokens, walk doc.links doc.token fuel n = some part ∧ doc.printed = some tokens ∧
    part <:+: tokens

/-- The element with this name and this value, as it is printed. -/
def leafTokens (name value : Bytes) : List (Visit Token) :=
  [.enter ⟨.element,some (cString name),some (cString value),[]⟩,
   .leave ⟨.element,some (cString name),some (cString value),[]⟩]

/-- `rnode_` is attached, what `AppendToRoot` added is printed, and `ParseFromString` changed nothing
if it returned false. -/
structure Extends (xml : Rapidxml) (op : Op) (doc doc' : S3XmlDoc) (b : Bool) : Prop where
  root : RootAttached doc'
  element : ∀ name value, op = .appendToRoot name value →
    ∃ tokens, doc'.printed = some tokens ∧ leafTokens name value <:+: tokens
  node : ∀ node n, op = .appendHandleToRoot node → doc.repNode node = some n → Appears doc' n
  unparsed : ∀ s, op = .parseFromString s → b = false → doc'.toString xml = doc.toString xml

/-- Every operation of the sequence leaves a document that the next one can extend. -/
def AlwaysExtends (memory : StringMemory) (xml : Rapidxml) (doc : S3XmlDoc) (es : List Op) : Prop :=
  RootAttached doc ∧ ∀ before op after doc1 doc2 b, es = before ++ op :: after →
    before.foldlM (S3XmlDoc.move memory xml) doc = some doc1 →
    doc1.step memory xml op = some (doc2,b) → Extends xml op doc1 doc2 b

/-- `rnode_` is a child of `doc_`. -/
def RootLinked (doc : S3XmlDoc) : Prop :=
  doc.links.parent doc.rnode = some 0 ∧ ∃ node, doc.nodes[doc.rnode]? = some node ∧
    node.type = .element

theorem RootLinked.attached (doc : S3XmlDoc) (hd : Sound doc) (h : RootLinked doc) :
    RootAttached doc :=
  ⟨Below.refl.child 0 doc.rnode ((hd.linked.child_iff 0 doc.rnode).mpr h.1), h.2⟩

theorem rootLinked_create (memory : StringMemory) (rootNode value : Bytes) :
    RootLinked (S3XmlDoc.create memory rootNode value) := ⟨rfl,_,rfl,rfl⟩

theorem RootLinked.allocateNode (memory : StringMemory) (doc : S3XmlDoc) (name value : Bytes)
    (h : RootLinked doc) : RootLinked (doc.allocateNode memory name value) := by
  rcases h with ⟨hp,node,hnode,htype⟩
  refine ⟨hp, node, ?_, htype⟩
  exact (List.getElem?_append_left (List.getElem?_eq_some_iff.mp hnode).1).trans hnode

/-- A node that is attached is not attached again. -/
theorem RootLinked.append (doc doc' : S3XmlDoc) (p c : ℕ) (h : RootLinked doc)
    (happend : doc.append p c = some doc') : RootLinked doc' := by
  rcases append_cases doc doc' p c happend with ⟨hfree,-,rfl⟩
  refine ⟨?_, h.2⟩
  have hne : doc.rnode ≠ c := by
    intro he
    rw [← he, h.1] at hfree
    exact absurd hfree (by simp)
  exact (Function.update_of_ne hne _ _).trans h.1

theorem RootLinked.change (memory : StringMemory) (doc doc' : S3XmlDoc) (h : RootLinked doc)
    (hc : Change memory doc doc') : RootLinked doc' := by
  cases hc with
  | same => exact h
  | newHandle => exact h
  | allocate name value => exact h.allocateNode memory doc name value
  | append doc1 _ p c k hdoc hp hk happend =>
    have h1 : RootLinked doc1 := by
      rcases hdoc with rfl | ⟨name,value,rfl⟩
      · exact h
      · exact h.allocateNode memory doc name value
    exact h1.append doc1 doc' p c happend
  | lookup _ i n name hset =>
    rcases setHandle_cases memory doc doc' i n name hset with ⟨_,_,_,_,_,_,-,-,-,-,rfl⟩
    exact h

theorem RootLinked.step (memory : StringMemory) (xml : Rapidxml) (doc doc' : S3XmlDoc) (op : Op)
    (b : Bool) (h : RootLinked doc) (hop : ∀ s, op ≠ .parseFromString s)
    (hs : doc.step memory xml op = some (doc',b)) : RootLinked doc' := by
  rcases step_cases memory xml doc doc' op b hs with hchange | ⟨s,he,-⟩
  · exact h.change memory doc doc' hchange
  · exact absurd he (hop s)

theorem RootLinked.run (memory : StringMemory) (xml : Rapidxml) (doc doc' : S3XmlDoc) (es : List Op)
    (h : RootLinked doc) (hes : ∀ s, Op.parseFromString s ∉ es)
    (hrun : es.foldlM (S3XmlDoc.move memory xml) doc = some doc') : RootLinked doc' := by
  induction es generalizing doc with
  | nil =>
    obtain rfl := Option.some.inj hrun
    exact h
  | cons op es ih =>
    rcases foldlM_cons_eq_some _ doc doc' op es hrun with ⟨doc1,hmove,hrest⟩
    rcases Option.map_eq_some_iff.mp hmove with ⟨r,hr,rfl⟩
    refine ih r.1 (h.step memory xml doc r.1 op r.2 ?_ hr) ?_ hrest
    · rintro s rfl
      exact hes s List.mem_cons_self
    · exact fun s hs => hes s (List.mem_cons_of_mem op hs)

/-- What is below `doc_` was made behind the first `base` nodes. -/
def AllNew (t : Links) (base : ℕ) : Prop := ∀ n c, c ∈ t.children n → n = 0 ∨ base ≤ n → base ≤ c

theorem AllNew.below (t : Links) (base n : ℕ) (h : AllNew t base) (hn : Below t 0 n) :
    n = 0 ∨ base ≤ n := by
  induction hn with
  | refl => exact Or.inl rfl
  | child m c _ hc ih => exact Or.inr (h m c hc ih)

theorem AllNew.attach (base : ℕ) (doc : S3XmlDoc) (ps : List ParsedNode)
    (hbase : base ≤ doc.nodes.length) (h : AllNew doc.links base) :
    AllNew (S3XmlDoc.attach base doc ps).links base := by
  induction ps generalizing doc with
  | nil => exact h
  | cons p ps ih =>
    unfold S3XmlDoc.attach
    dsimp only
    apply ih
    · rw [List.length_append]
      exact hbase.trans (Nat.le_add_right _ _)
    · intro n c hc hn
      unfold Links.append at hc
      dsimp only at hc
      rw [Function.update_apply] at hc
      split_ifs at hc with hparent
      · rcases List.mem_append.mp hc with hold | hnew
        · exact h _ c hold (hparent ▸ hn)
        · rw [List.mem_singleton.mp hnew]
          exact hbase
      · exact h n c hc hn

/-- `rnode_` is none of the nodes that a text attaches. -/
theorem parse_detaches (xml : Rapidxml) (doc : S3XmlDoc) (s : Bytes) (hd : Sound doc)
    (hne : doc.rnode ≠ 0) : ¬ Below (doc.parseFromString xml s).1.links 0 doc.rnode := by
  intro hbelow
  have hnew : AllNew (doc.parseFromString xml s).1.links doc.nodes.length := by
    apply AllNew.attach
    · exact Nat.le_refl _
    · intro n c hc hn
      unfold Links.removeAll at hc
      dsimp only at hc
      rw [Function.update_apply] at hc
      split_ifs at hc with hzero
      · exact absurd hc List.not_mem_nil
      · have hlt := (hd.linked.bound n c ((hd.linked.child_iff n c).mp hc)).1
        exact absurd (hn.resolve_left hzero) (Nat.not_le_of_lt hlt)
  rcases hnew.below _ _ doc.rnode hbelow with hzero | hle
  · exact hne hzero
  · exact absurd hd.rnode (Nat.not_lt_of_le hle)

theorem attach_rnode (base : ℕ) (doc : S3XmlDoc) (ps : List ParsedNode) :
    (S3XmlDoc.attach base doc ps).rnode = doc.rnode := by
  induction ps generalizing doc with
  | nil => rfl
  | cons p ps ih => exact ih _

/-- No operation but the constructor sets `rnode_`. -/
theorem step_rnode (memory : StringMemory) (xml : Rapidxml) (doc doc' : S3XmlDoc) (op : Op) (b : Bool)
    (h : doc.step memory xml op = some (doc',b)) : doc'.rnode = doc.rnode := by
  rcases step_cases memory xml doc doc' op b h with hchange | ⟨s,-,rfl⟩
  · cases hchange with
    | append doc1 _ p c k hdoc hp hk happend =>
      rcases append_cases doc1 doc' p c happend with ⟨-,-,rfl⟩
      rcases hdoc with rfl | ⟨name,value,rfl⟩
      · rfl
      · rfl
    | lookup _ i n name hset =>
      rcases setHandle_cases memory doc doc' i n name hset with ⟨_,_,_,_,_,_,-,-,-,-,rfl⟩
      rfl
    | _ => rfl
  · exact attach_rnode _ _ _

theorem run_rnode (memory : StringMemory) (xml : Rapidxml) (doc doc' : S3XmlDoc) (es : List Op)
    (h : es.foldlM (S3XmlDoc.move memory xml) doc = some doc') : doc'.rnode = doc.rnode := by
  induction es generalizing doc with
  | nil =>
    obtain rfl := Option.some.inj h
    rfl
  | cons op es ih =>
    rcases foldlM_cons_eq_some _ doc doc' op es h with ⟨doc1,hmove,hrest⟩
    rcases Option.map_eq_some_iff.mp hmove with ⟨r,hr,rfl⟩
    exact (ih r.1 hrest).trans (step_rnode memory xml doc r.1 op r.2 hr)

/-- What is below `doc_` is printed. -/
theorem appears_of_below (doc : S3XmlDoc) (n : ℕ) (hd : Sound doc) (h : Below doc.links 0 n) :
    Appears doc n := by
  rcases hd.printed doc with ⟨tokens,htokens⟩
  rcases walk_part doc.token _ 0 n tokens htokens h with ⟨fuel,part,hpart,hinf⟩
  exact ⟨fuel, part, tokens, hpart, htokens, hinf⟩

theorem appendHandleToRoot_below (doc doc' : S3XmlDoc) (node n : ℕ) (hd : Sound doc)
    (hr : RootLinked doc) (hn : doc.repNode node = some n)
    (h : doc.appendHandleToRoot node = some doc') : Below doc'.links 0 n := by
  rcases Option.bind_eq_some_iff.mp h with ⟨c,hc,happend⟩
  obtain rfl := Option.some.inj (hn.symm.trans hc)
  rcases append_cases doc doc' doc.rnode n happend with ⟨-,-,rfl⟩
  exact (hr.attached doc hd).1.appended 0 doc.rnode n

theorem shown_new (memory : StringMemory) (heap : Buffers) (text : Bytes) :
    shown (newString memory heap text).1 ⟨heap.length,(cString text).length⟩ = some (cString text) := by
  have hcut (rest : Bytes) : (text ++ rest).take (cString text).length = cString text := by
    have hpre : cString text <+: text ++ rest :=
      (List.takeWhile_prefix _).trans (List.prefix_append text rest)
    exact (List.prefix_iff_eq_take.mp hpre).symm
  unfold shown cells newString
  dsimp only
  rw [List.getElem?_concat_length]
  exact congrArg some (hcut _)

theorem repNode_allocated (memory : StringMemory) (doc : S3XmlDoc) (name value : Bytes) :
    (doc.allocateNode memory name value).repNode doc.handles.length = some doc.nodes.length := by
  unfold S3XmlDoc.repNode S3XmlDoc.allocateNode
  dsimp only
  rw [List.getElem?_concat_length]
  rfl

/-- The node that was allocated last shows its name and its value up to the first 0. -/
theorem token_allocated (memory : StringMemory) (doc : S3XmlDoc) (name value : Bytes) :
    (doc.allocateNode memory name value).token doc.nodes.length =
      ⟨.element,some (cString name),some (cString value),[]⟩ := by
  unfold S3XmlDoc.token S3XmlDoc.allocateNode
  dsimp only
  rw [List.getElem?_concat_length]
  dsimp only
  rw [← shown_new memory doc.names name, ← shown_new memory doc.values value]
  rfl

/-- The new element is the last child of the root, and it is printed with its name and its value. -/
theorem appendToRoot_prints (memory : StringMemory) (doc doc' : S3XmlDoc) (name value : Bytes)
    (hd : Sound doc) (hr : RootLinked doc) (h : doc.appendToRoot memory name value = some doc')
    (hd' : Sound doc') :
    ∃ tokens, doc'.printed = some tokens ∧ leafTokens name value <:+: tokens := by
  have hd1 := hd.allocateNode memory doc name value
  have hnew := repNode_allocated memory doc name value
  have hbelow := appendHandleToRoot_below _ doc' _ _ hd1 (hr.allocateNode memory doc name value)
    hnew h
  rcases appears_of_below doc' _ hd' hbelow with ⟨fuel,part,tokens,hpart,htokens,hinf⟩
  refine ⟨tokens, htokens, ?_⟩
  rcases Option.bind_eq_some_iff.mp h with ⟨c,hc,happend⟩
  obtain rfl := Option.some.inj (hnew.symm.trans hc)
  rcases append_cases _ doc' _ _ happend with ⟨-,-,rfl⟩
  -- the new node has no children, so its part of the walk is its two visits
  have hleaf : ((doc.allocateNode memory name value).links.append doc.rnode doc.nodes.length).children
      doc.nodes.length = [] := by
    have hne : doc.nodes.length ≠ doc.rnode := Nat.ne_of_gt hd.rnode
    refine (Function.update_of_ne hne _ _).trans ?_
    rw [List.eq_nil_iff_forall_not_mem]
    intro c hmem
    have hlt := (hd.linked.bound _ c ((hd.linked.child_iff _ c).mp hmem)).1
    exact absurd hlt (Nat.lt_irrefl _)
  -- its name and its value are still what was allocated
  have htoken : S3XmlDoc.token { doc.allocateNode memory name value with
      links := (doc.allocateNode memory name value).links.append
        (doc.allocateNode memory name value).rnode doc.nodes.length } doc.nodes.length =
      ⟨.element,some (cString name),some (cString value),[]⟩ := token_allocated memory doc name value
  have hpart' := walk_leaf _ fuel doc.nodes.length part hleaf hpart
  rw [htoken] at hpart'
  rw [leafTokens, ← hpart']
  exact hinf

/-- Every operation of a sequence extends the document exactly if the sequence parses nothing. -/
theorem always_extends_iff (memory : StringMemory) (xml : Rapidxml) (rootNode value : Bytes)
    (es : List Op) (doc : S3XmlDoc)
    (h : es.foldlM (S3XmlDoc.move memory xml) (S3XmlDoc.create memory rootNode value) = some doc) :
    AlwaysExtends memory xml (S3XmlDoc.create memory rootNode value) es ↔
      ∀ s, Op.parseFromString s ∉ es := by
  have hstart := sound_create memory rootNode value
  constructor
  -- whatever happened before, a parse leaves the root outside
  · rintro ⟨-,hextends⟩ s hmem
    rcases List.append_of_mem hmem with ⟨before,after,rfl⟩
    rcases foldlM_append_eq_some _ _ doc before _ h with ⟨doc1,hbefore,-⟩
    have hroot := (hextends before _ after doc1 _ _ rfl hbefore rfl).root
    have hrnode : doc1.rnode = 2 := run_rnode memory xml _ doc1 before hbefore
    have hlost := parse_detaches xml doc1 s (hstart.run memory xml _ doc1 before hbefore)
      (by rw [hrnode]; decide)
    have hkept : (doc1.parseFromString xml s).1.rnode = doc1.rnode := attach_rnode _ _ _
    rw [← hkept] at hlost
    exact hlost hroot.1
  · intro hes
    have hlinked := rootLinked_create memory rootNode value
    refine ⟨hlinked.attached _ hstart, ?_⟩
    intro before op after doc1 doc2 b he hbefore hstep
    -- a sequence without a parse keeps the root attached, so each append is printed
    have hno (e : Op) (hmem : e ∈ before ++ [op]) (s : Bytes) : e ≠ .parseFromString s := by
      rintro rfl
      apply hes s
      rw [he]
      rcases List.mem_append.mp hmem with hin | hin
      · exact List.mem_append_left _ hin
      · rw [List.mem_singleton.mp hin]
        exact List.mem_append_right _ List.mem_cons_self
    have hop := hno op (List.mem_append_right _ (List.mem_singleton_self op))
    have hd1 := hstart.run memory xml _ doc1 before hbefore
    have hr1 := hlinked.run memory xml _ doc1 before
      (fun s hs => hno _ (List.mem_append_left _ hs) s rfl) hbefore
    have hd2 := hd1.step memory xml doc1 doc2 op b hstep
    have hr2 := hr1.step memory xml doc1 doc2 op b hop hstep
    refine ⟨hr2.attached doc2 hd2, ?_, ?_, fun s hs => absurd hs (hop s)⟩
    · rintro name value rfl
      rcases Option.map_eq_some_iff.mp hstep with ⟨doc3,happend,hdone⟩
      obtain ⟨rfl,-⟩ := Prod.mk.inj hdone
      exact appendToRoot_prints memory doc1 _ name value hd1 hr1 happend hd2
    · rintro node n rfl hn
      rcases Option.map_eq_some_iff.mp hstep with ⟨doc3,happend,hdone⟩
      obtain ⟨rfl,-⟩ := Prod.mk.inj hdone
      exact appears_of_below _ n hd2 (appendHandleToRoot_below doc1 _ node n hd1 hr1 hn happend)

theorem always_extends_iff_entry : ∃ doc,
    [Op.appendToRoot (ascii "a") (ascii "1")].foldlM (S3XmlDoc.move shortStrings elementsXml)
      (S3XmlDoc.create shortStrings (ascii "r") []) = some doc ∧
    (AlwaysExtends shortStrings elementsXml (S3XmlDoc.create shortStrings (ascii "r") [])
        [.appendToRoot (ascii "a") (ascii "1")] ↔
      ∀ s, Op.parseFromString s ∉ [Op.appendToRoot (ascii "a") (ascii "1")]) := by
  have hrun : ∃ doc,
      [Op.appendToRoot (ascii "a") (ascii "1")].foldlM (S3XmlDoc.move shortStrings elementsXml)
        (S3XmlDoc.create shortStrings (ascii "r") []) = some doc := by
    apply Option.isSome_iff_exists.mp
    rfl
  rcases hrun with ⟨doc,hdoc⟩
  exact ⟨doc, hdoc, always_extends_iff shortStrings elementsXml (ascii "r") [] _ doc hdoc⟩

/-- A text that is not parsed empties the document, and nothing that is added later is printed. -/
theorem failed_parse_detaches_root :
    ([Op.parseFromString (ascii "<"), .appendToRoot (ascii "a") (ascii "1")].foldlM
      (S3XmlDoc.move shortStrings elementsXml) (S3XmlDoc.create shortStrings (ascii "r") [])).map
        (S3XmlDoc.toString elementsXml) = some (some (ascii "\n")) ∧
    ¬ ∀ (memory : StringMemory) (xml : Rapidxml) (rootNode value : Bytes) (es : List Op)
      (doc : S3XmlDoc),
      es.foldlM (S3XmlDoc.move memory xml) (S3XmlDoc.create memory rootNode value) = some doc →
      AlwaysExtends memory xml (S3XmlDoc.create memory rootNode value) es := by
  refine ⟨by decide +kernel, ?_⟩
  intro h
  let start := S3XmlDoc.create shortStrings (ascii "r") []
  have hextends := h shortStrings elementsXml (ascii "r") [] [.parseFromString (ascii "<")] _ rfl
  have hsame : (start.parseFromString elementsXml (ascii "<")).1.toString elementsXml =
      start.toString elementsXml :=
    (hextends.2 [] _ [] start _ _ rfl rfl rfl).unparsed (ascii "<") rfl rfl
  have hbefore : (start.toString elementsXml).map List.length = some 94 := by
    decide +kernel
  have hafter : ((start.parseFromString elementsXml (ascii "<")).1.toString elementsXml).map
      List.length = some 1 := by
    decide +kernel
  rw [hsame, hbefore] at hafter
  exact absurd hafter (by decide)

end Cclab.S3Xml
