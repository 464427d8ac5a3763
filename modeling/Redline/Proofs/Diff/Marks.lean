import Redline.Proofs.Diff.Cost

/-! # Marks in the document of a diff

A replacement is shown by two marks in a row, one around what is removed and one around what is
inserted.  Layers put texts, rows and brackets around the documents of their children but no mark,
so what is found of the marks in the document of a diff is found in its replacements, in their order
(`filter_parts_doc`): this holds of the marks and of the rows that have a mark in them
(`Unframed`).  The terms inside the marks have no marks of their own (`filter_parts_sideDoc`).
Main statement: `countP_parts_doc`. -/

namespace Redline

/-! ### Parts of documents -/

namespace Doc

mutual

/-- The document and what is in it, from the left to the right and the outer before the inner. -/
def parts : Doc → List Doc
  | empty => [empty]
  | text s => [text s]
  | row docs => row docs :: partsAll docs
  | wrap opening inner closing => wrap opening inner closing :: parts inner

def partsAll : List Doc → List Doc
  | [] => []
  | d :: ds => parts d ++ partsAll ds

end

theorem parts_row (docs : List Doc) : (row docs).parts = row docs :: docs.flatMap parts := by
  rw [parts]
  induction docs with
  | nil => rfl
  | cons d ds ih => rw [partsAll, (List.cons.inj ih).2, List.flatMap_cons]

/-- The documents that the document is put together of. -/
def pieces : Doc → List Doc
  | empty => []
  | text _ => []
  | row docs => docs
  | wrap _ inner _ => [inner]

/-- What is in a document is the document or a piece of something in it. -/
theorem eq_or_mem_pieces : ∀ {d m : Doc}, m ∈ d.parts → m = d ∨ ∃ q ∈ d.parts, m ∈ q.pieces
  | empty, _, h => .inl (List.mem_singleton.1 h)
  | text _, _, h => .inl (List.mem_singleton.1 h)
  | row docs, m, h => by
      rw [parts_row] at h ⊢
      refine (List.mem_cons.1 h).imp_right fun h => ?_
      obtain ⟨e, he, hm⟩ := List.mem_flatMap.1 h
      rcases eq_or_mem_pieces hm with rfl | ⟨q, hq, hpiece⟩
      · exact ⟨row docs, List.mem_cons_self, he⟩
      · exact ⟨q, List.mem_cons_of_mem _ (List.mem_flatMap.2 ⟨e, he, hq⟩), hpiece⟩
  | wrap opening inner closing, m, h => by
      rw [parts] at h ⊢
      refine (List.mem_cons.1 h).imp_right fun h => ?_
      rcases eq_or_mem_pieces h with rfl | ⟨q, hq, hpiece⟩
      · exact ⟨_, List.mem_cons_self, List.mem_singleton.2 rfl⟩
      · exact ⟨q, List.mem_cons_of_mem _ hq, hpiece⟩

/-! ### Marks -/

def isRemoval : Doc → Bool
  | wrap opening _ closing => opening = "\x7b-" && closing = "-\x7d"
  | _ => false

def isInsertion : Doc → Bool
  | wrap opening _ closing => opening = "\x7b+" && closing = "+\x7d"
  | _ => false

def isMark (d : Doc) : Bool := d.isRemoval || d.isInsertion

/-- Whether a piece of the document is a mark. -/
def holdsMark (d : Doc) : Bool := d.pieces.any isMark

/-- What is put around documents that are no marks does not satisfy `p`, if it is no mark. -/
structure Unframed (p : Doc → Bool) : Prop where
  empty : p empty = false
  text : ∀ s, p (text s) = false
  row : ∀ {docs : List Doc}, (∀ d ∈ docs, d.isMark = false) → p (row docs) = false
  wrap : ∀ {opening inner closing}, (wrap opening inner closing).isMark = false →
    inner.isMark = false → p (wrap opening inner closing) = false

theorem unframed_isMark : Unframed isMark := ⟨rfl, fun _ => rfl, fun _ => rfl, fun h _ => h⟩

theorem unframed_isRemoval : Unframed isRemoval :=
  ⟨rfl, fun _ => rfl, fun _ => rfl, fun h _ => (Bool.or_eq_false_iff.1 h).1⟩

theorem unframed_isInsertion : Unframed isInsertion :=
  ⟨rfl, fun _ => rfl, fun _ => rfl, fun h _ => (Bool.or_eq_false_iff.1 h).2⟩

theorem unframed_holdsMark : Unframed holdsMark where
  empty := rfl
  text _ := rfl
  row h := List.any_eq_false.2 fun d hd => by simp [h d hd]
  wrap _ h := by simp [holdsMark, pieces, h]

section Frames

variable {p : Doc → Bool} (hp : Unframed p)

include hp

theorem filter_parts_text (s : String) : (text s).parts.filter p = [] := by
  rw [parts, List.filter_cons, hp.text]
  rfl

theorem filter_parts_row {docs : List Doc} (h : ∀ d ∈ docs, d.isMark = false) :
    (row docs).parts.filter p = docs.flatMap fun d => d.parts.filter p := by
  rw [parts_row, List.filter_cons, hp.row h, List.filter_flatMap]
  rfl

theorem filter_parts_wrap {opening closing : String}
    (hbrackets : ∀ inner, (wrap opening inner closing).isMark = false) {inner : Doc}
    (h : inner.isMark = false) :
    (wrap opening inner closing).parts.filter p = inner.parts.filter p := by
  rw [parts, List.filter_cons, hp.wrap (hbrackets inner) h]
  rfl

omit hp in
theorem isMark_of_mem_intersperse (separator : String) : ∀ {docs : List Doc},
    (∀ d ∈ docs, d.isMark = false) → ∀ d ∈ docs.intersperse (text separator), d.isMark = false
  | [], h => h
  | [_], h => h
  | d :: e :: ds, h => by
      obtain ⟨hd, hrest⟩ := List.forall_mem_cons.1 h
      rw [List.intersperse_cons_cons]
      exact List.forall_mem_cons.2 ⟨hd, List.forall_mem_cons.2
        ⟨rfl, isMark_of_mem_intersperse separator hrest⟩⟩

/-- Separators are no marks. -/
theorem filter_parts_join (separator : String) {docs : List Doc}
    (h : ∀ d ∈ docs, d.isMark = false) :
    (join separator docs).parts.filter p = docs.flatMap fun d => d.parts.filter p := by
  rw [join, filter_parts_row hp (isMark_of_mem_intersperse separator h)]
  clear h
  induction docs with
  | nil => rfl
  | cons d ds ih =>
      cases ds with
      | nil => rfl
      | cons e ds =>
          rw [List.intersperse_cons_cons, List.flatMap_cons, List.flatMap_cons, ih,
            filter_parts_text hp, List.nil_append]
          rfl

/-- A list between brackets. -/
theorem filter_parts_listed {opening closing : String} {docs : List Doc}
    (hbrackets : ∀ inner, (wrap opening inner closing).isMark = false)
    (h : ∀ d ∈ docs, d.isMark = false) :
    (wrap opening (join ", " docs) closing).parts.filter p =
      docs.flatMap fun d => d.parts.filter p := by
  rw [filter_parts_wrap hp hbrackets rfl, filter_parts_join hp _ h]

end Frames

end Doc

/-! ### Layers -/

theorem Rendering.isMark_closed {r : Rendering} (h : r.doc.isMark = false) :
    r.closed.isMark = false := by
  unfold closed
  split
  · rfl
  · exact h

theorem Rendering.filter_parts_closed {p : Doc → Bool} (hp : Doc.Unframed p) {r : Rendering}
    (h : r.doc.isMark = false) : r.closed.parts.filter p = r.doc.parts.filter p := by
  unfold closed
  split
  · exact Doc.filter_parts_wrap hp (fun _ => rfl) h
  · rfl

namespace Layer

theorem isMark_doc (l : Layer Doc) : l.doc.isMark = false := by
  cases l with
  | lambda parameters body => cases parameters <;> rfl
  | _ => rfl

variable {p : Doc → Bool} (hp : Doc.Unframed p)

include hp

/-- Nothing is found in a layer but what is in its children, in their order. -/
theorem filter_parts_doc {l : Layer Doc} (h : ∀ d ∈ l.children, d.isMark = false) :
    l.doc.parts.filter p = l.children.flatMap fun d => d.parts.filter p := by
  cases l with
  | apply callee arguments =>
      obtain ⟨hcallee, harguments⟩ := List.forall_mem_cons.1 h
      refine (Doc.filter_parts_row hp ?_).trans ?_
      · exact List.forall_mem_cons.2 ⟨hcallee, List.forall_mem_singleton.2 rfl⟩
      · rw [List.flatMap_cons, List.flatMap_singleton,
          Doc.filter_parts_listed hp (fun _ => rfl) harguments, children, List.flatMap_cons]
  | lambda parameters body =>
      obtain ⟨hparameters, hbody⟩ := List.forall_mem_append.1 h
      cases parameters with
      | nil =>
          refine (Doc.filter_parts_row hp (List.forall_mem_cons.2 ⟨rfl, hbody⟩)).trans ?_
          rw [List.flatMap_cons, Doc.filter_parts_text hp, List.nil_append]
          rfl
      | cons q qs =>
          refine (Doc.filter_parts_row hp ?_).trans ?_
          · exact List.forall_mem_cons.2 ⟨rfl, List.forall_mem_cons.2
              ⟨rfl, List.forall_mem_cons.2 ⟨rfl, hbody⟩⟩⟩
          · rw [List.flatMap_cons, List.flatMap_cons, List.flatMap_cons,
              Doc.filter_parts_text hp, Doc.filter_parts_text hp,
              Doc.filter_parts_join hp _ hparameters, List.nil_append, List.nil_append, children,
              List.flatMap_append]
  | assign x value =>
      refine (Doc.filter_parts_row hp ?_).trans ?_
      · exact List.forall_mem_cons.2 ⟨rfl, List.forall_mem_cons.2 ⟨rfl, h⟩⟩
      · rw [List.flatMap_cons, List.flatMap_cons, Doc.filter_parts_text hp,
          Doc.filter_parts_text hp, List.nil_append, List.nil_append]
        rfl
  | name x => exact Doc.filter_parts_text hp x
  | literal v => exact Doc.filter_parts_text hp v.render
  | group tag value =>
      obtain ⟨htag, hvalue⟩ := List.forall_mem_append.1 h
      refine (Doc.filter_parts_row hp ?_).trans ?_
      · exact List.forall_mem_cons.2 ⟨rfl, List.forall_mem_singleton.2 rfl⟩
      · rw [List.flatMap_cons, List.flatMap_singleton,
          Doc.filter_parts_listed hp (fun _ => rfl) htag,
          Doc.filter_parts_wrap hp (fun _ => rfl) (hvalue value List.mem_cons_self), children,
          List.flatMap_append, List.flatMap_singleton]

omit hp in
/-- The documents of the children are theirs, as far as parentheses do not matter. -/
theorem map_children_childDocs {β : Type} {g : Doc → β} {l : Layer Rendering}
    (h : ∀ r ∈ l.children, g r.closed = g r.doc) :
    l.childDocs.children.map g = l.children.map fun r => g r.doc := by
  cases l with
  | apply callee arguments =>
      rw [childDocs, children, children, List.map_cons, List.map_cons, List.map_map,
        h callee List.mem_cons_self]
      rfl
  | lambda parameters body =>
      have hparameters : parameters.map (g ∘ (·.closed)) = parameters.map fun r => g r.doc :=
        List.map_congr_left fun r hr => h r (List.mem_append_left [body] hr)
      rw [childDocs, children, children, List.map_append, List.map_append, List.map_map,
        hparameters]
      rfl
  | assign x value => rfl
  | name x => rfl
  | literal v => rfl
  | group tag value =>
      simp [childDocs, asRef, map, children]

theorem filter_parts_rendering {l : Layer Rendering} (h : ∀ r ∈ l.children, r.doc.isMark = false) :
    l.rendering.doc.parts.filter p = l.children.flatMap fun r => r.doc.parts.filter p := by
  have hmarks : ∀ d ∈ l.childDocs.children, d.isMark = false := by
    have hmap := map_children_childDocs (g := Doc.isMark) (l := l) fun r hr =>
      (Rendering.isMark_closed (h r hr)).trans (h r hr).symm
    intro d hd
    obtain ⟨r, hr, heq⟩ := List.mem_map.1 (hmap ▸ List.mem_map_of_mem hd)
    exact heq.symm.trans (h r hr)
  rw [rendering, filter_parts_doc hp hmarks, List.flatMap_def, List.flatMap_def,
    map_children_childDocs fun r hr => Rendering.filter_parts_closed hp (h r hr)]

end Layer

/-! ### Terms and diffs -/

namespace Tree

variable {α : Type} {leafDoc : α → Doc} (hleaf : ∀ a, (leafDoc a).isMark = false)

include hleaf

theorem isMark_rendering (t : Tree α) : (t.rendering leafDoc).doc.isMark = false := by
  cases t with
  | leaf a => exact hleaf a
  | node l =>
      rw [rendering_node]
      exact Layer.isMark_doc _

theorem filter_parts_rendering {p : Doc → Bool} (hp : Doc.Unframed p) (l : Layer (Tree α)) :
    ((node l).rendering leafDoc).doc.parts.filter p =
      l.children.flatMap fun c => (c.rendering leafDoc).doc.parts.filter p := by
  have hmarks : ∀ r ∈ (l.map (rendering leafDoc)).children, r.doc.isMark = false := by
    rw [Layer.children_map]
    exact List.forall_mem_map.2 fun c _ => isMark_rendering hleaf c
  rw [rendering_node, Layer.filter_parts_rendering hp hmarks, Layer.children_map,
    List.flatMap_map]

end Tree

variable {p : Doc → Bool}

/-- Terms have no marks in them. -/
theorem Term.filter_parts_doc (hp : Doc.Unframed p) (t : Term) : t.doc.parts.filter p = [] := by
  unfold doc
  induction t using Tree.induction with
  | leaf a => exact Doc.filter_parts_text hp "_"
  | node l ih =>
      rw [Tree.filter_parts_rendering (fun _ => rfl) hp]
      exact List.flatMap_eq_nil_iff.2 ih

namespace Diff

theorem isMark_sideDoc (t : Term) : (sideDoc t).isMark = false := by
  match t with
  | .absent => rfl
  | .node l => exact Tree.isMark_rendering (fun _ => rfl) (.node l)

theorem filter_parts_sideDoc (hp : Doc.Unframed p) (t : Term) :
    (sideDoc t).parts.filter p = [] := by
  match t with
  | .absent =>
      rw [sideDoc, Doc.parts, List.filter_cons, hp.empty]
      rfl
  | .node l => exact Term.filter_parts_doc hp (.node l)

/-- The mark around what is removed. -/
def removal (old : Term) : Doc := .wrap "\x7b-" (sideDoc old) "-\x7d"

/-- The mark around what is inserted. -/
def insertion (new : Term) : Doc := .wrap "\x7b+" (sideDoc new) "+\x7d"

theorem changeDoc_replace (old new : Term) :
    changeDoc (.replace old new) = .row [removal old, insertion new] := rfl

/-- The replacements of a diff, in the order of its children. -/
def replacements : Diff → List (Term × Term) :=
  Tree.fold (fun | .absent => [] | .replace old new => [(old, new)]) fun l => l.children.flatten

theorem replacements_node (l : Layer Diff) :
    replacements (.node l) = l.children.flatMap replacements := by
  rw [replacements, Tree.fold_node, Layer.children_map, List.flatMap_def]

theorem length_replacements (d : Diff) : d.replacements.length = d.magnitude := by
  induction d using Tree.induction with
  | leaf c => cases c <;> rfl
  | node l ih =>
      rw [replacements_node, magnitude_eq_total]
      generalize l.children = ds at ih
      induction ds with
      | nil => rfl
      | cons d ds ihs =>
          obtain ⟨hd, hds⟩ := List.forall_mem_cons.1 ih
          rw [List.flatMap_cons, List.length_append, hd, ihs hds, total_cons]

theorem parts_changeDoc (old new : Term) : (changeDoc (.replace old new)).parts =
    [.row [removal old, insertion new], removal old] ++ (sideDoc old).parts ++
      ([insertion new] ++ (sideDoc new).parts) := by
  rw [changeDoc_replace, Doc.parts_row, List.flatMap_cons, List.flatMap_singleton]
  rfl

/-- What is found in a replacement are its marks and the row of them. -/
theorem filter_parts_changeDoc (hp : Doc.Unframed p) (old new : Term) :
    (changeDoc (.replace old new)).parts.filter p =
      [.row [removal old, insertion new], removal old, insertion new].filter p := by
  rw [parts_changeDoc, List.filter_append, List.filter_append, List.filter_append,
    filter_parts_sideDoc hp, filter_parts_sideDoc hp, List.append_nil, List.append_nil,
    ← List.filter_append]
  rfl

/-- What is found in the document of a diff is found in its replacements, in their order. -/
theorem filter_parts_doc (hp : Doc.Unframed p) (d : Diff) : d.doc.parts.filter p =
    d.replacements.flatMap fun r =>
      [.row [removal r.1, insertion r.2], removal r.1, insertion r.2].filter p := by
  unfold doc
  induction d using Tree.induction with
  | leaf c =>
      cases c with
      | absent => exact filter_parts_sideDoc hp .absent
      | replace old new =>
          exact (filter_parts_changeDoc hp old new).trans (List.flatMap_singleton ..).symm
  | node l ih =>
      rw [replacements_node, Tree.filter_parts_rendering ?_ hp, List.flatMap_assoc]
      · rw [List.flatMap_def, List.flatMap_def, List.map_congr_left ih]
      · intro c
        cases c <;> rfl

/-! ### The marks of a diff -/

/-- One document for each replacement. -/
theorem countP_parts (hp : Doc.Unframed p) {mark : Term × Term → Doc}
    (h : ∀ r : Term × Term,
      [.row [removal r.1, insertion r.2], removal r.1, insertion r.2].filter p = [mark r])
    (d : Diff) : d.doc.parts.countP p = d.magnitude := by
  simp only [List.countP_eq_length_filter, filter_parts_doc hp, h]
  rw [← List.map_eq_flatMap, List.length_map, length_replacements]

theorem mem_marks {d : Diff} {m : Doc} (hm : m ∈ d.doc.parts) (hmark : m.isMark = true) :
    ∃ r ∈ d.replacements, m = removal r.1 ∨ m = insertion r.2 := by
  have hmem := List.mem_filter.2 ⟨hm, hmark⟩
  rw [filter_parts_doc Doc.unframed_isMark] at hmem
  obtain ⟨r, hr, hmem⟩ := List.mem_flatMap.1 hmem
  have hmem : m ∈ [removal r.1, insertion r.2] := hmem
  exact ⟨r, hr, by simpa using hmem⟩

/-- No mark is in a side of a replacement. -/
theorem isMark_of_mem_parts_sideDoc {t : Term} {q : Doc} (h : q ∈ (sideDoc t).parts) :
    q.isMark = false := by
  have hnone := List.filter_eq_nil_iff.1 (filter_parts_sideDoc Doc.unframed_isMark t) q h
  exact Bool.eq_false_iff.2 hnone

/-- What is in a mark is no mark. -/
theorem holdsMark_wrap_sideDoc (opening closing : String) (t : Term) :
    (Doc.wrap opening (sideDoc t) closing).holdsMark = false := by
  rw [Doc.holdsMark, Doc.pieces, List.any_cons, isMark_sideDoc]
  rfl

theorem mem_rows {d : Diff} {q m : Doc} (hq : q ∈ d.doc.parts) (hm : m ∈ q.pieces)
    (hmark : m.isMark = true) :
    ∃ r ∈ d.replacements, q = .row [removal r.1, insertion r.2] := by
  have hholds : q.holdsMark = true := List.any_eq_true.2 ⟨m, hm, hmark⟩
  have hmem := List.mem_filter.2 ⟨hq, hholds⟩
  rw [filter_parts_doc Doc.unframed_holdsMark] at hmem
  obtain ⟨r, hr, hmem⟩ := List.mem_flatMap.1 hmem
  refine ⟨r, hr, ?_⟩
  have hcases : q = .row [removal r.1, insertion r.2] ∨ q = removal r.1 ∨ q = insertion r.2 := by
    simpa using (List.mem_filter.1 hmem).1
  rcases hcases with hrow | rfl | rfl
  · exact hrow
  · rw [removal, holdsMark_wrap_sideDoc] at hholds
    cases hholds
  · rw [insertion, holdsMark_wrap_sideDoc] at hholds
    cases hholds

/-- Every mark stands in a row. -/
theorem exists_row_of_mark {d : Diff} {m : Doc} (hm : m ∈ d.doc.parts) (hmark : m.isMark = true) :
    ∃ q ∈ d.doc.parts, m ∈ q.pieces := by
  rcases Doc.eq_or_mem_pieces hm with rfl | hpiece
  · rw [doc, Tree.isMark_rendering fun c => by cases c <;> rfl] at hmark
    cases hmark
  · exact hpiece

/-- A diff costs as much as there are removals in its document, and as there are insertions.  No
mark is inside another.  Every mark is a piece of something, and what has a mark for a piece is a
row of two, which are a replacement of the diff: what is removed, and then what is inserted. -/
theorem countP_parts_doc (d : Diff) :
    d.doc.parts.countP Doc.isRemoval = d.magnitude ∧
    d.doc.parts.countP Doc.isInsertion = d.magnitude ∧
    (∀ opening inner closing, .wrap opening inner closing ∈ d.doc.parts →
      (Doc.wrap opening inner closing).isMark = true → ∀ q ∈ inner.parts, q.isMark = false) ∧
    (∀ m ∈ d.doc.parts, m.isMark = true → ∃ q ∈ d.doc.parts, m ∈ q.pieces) ∧
    ∀ q ∈ d.doc.parts, ∀ m ∈ q.pieces, m.isMark = true →
      ∃ r ∈ d.replacements, q = .row [removal r.1, insertion r.2] := by
  refine ⟨countP_parts Doc.unframed_isRemoval (fun _ => rfl) d,
    countP_parts Doc.unframed_isInsertion (fun _ => rfl) d, ?_, fun _ => exists_row_of_mark,
    fun _ hq _ => mem_rows hq⟩
  intro opening inner closing hm hmark q hq
  obtain ⟨r, -, h | h⟩ := mem_marks hm hmark
  · obtain ⟨-, rfl, -⟩ := Doc.wrap.inj h
    exact isMark_of_mem_parts_sideDoc hq
  · obtain ⟨-, rfl, -⟩ := Doc.wrap.inj h
    exact isMark_of_mem_parts_sideDoc hq

/-- A callee that is removed, in a call with an argument that looks like a mark. -/
theorem countP_parts_doc_callee :
    (doc (.node (.apply (delete (.node (.name "f")))
      [.node (.literal (.text "\x7b-x-\x7d"))]))).parts.countP Doc.isRemoval = 1 ∧
    removal (.node (.name "f")) ∈ (doc (.node (.apply (delete (.node (.name "f")))
      [.node (.literal (.text "\x7b-x-\x7d"))]))).parts ∧
    (∀ q ∈ (sideDoc (.node (.name "f"))).parts, q.isMark = false) ∧
    (∃ q ∈ (doc (.node (.apply (delete (.node (.name "f")))
      [.node (.literal (.text "\x7b-x-\x7d"))]))).parts, removal (.node (.name "f")) ∈ q.pieces) ∧
    ∃ r ∈ replacements (.node (.apply (delete (.node (.name "f")))
        [.node (.literal (.text "\x7b-x-\x7d"))])),
      Doc.row [removal (.node (.name "f")), insertion .absent] =
        .row [removal r.1, insertion r.2] := by
  obtain ⟨hcount, -, hinner, hpiece, hrow⟩ := countP_parts_doc
    (.node (.apply (delete (.node (.name "f"))) [.node (.literal (.text "\x7b-x-\x7d"))]))
  have hmem : removal (.node (.name "f")) ∈ (doc (.node (.apply (delete (.node (.name "f")))
      [.node (.literal (.text "\x7b-x-\x7d"))]))).parts :=
    List.mem_cons_of_mem _ (List.mem_cons_of_mem _ List.mem_cons_self)
  exact ⟨hcount, hmem, hinner _ _ _ hmem rfl, hpiece _ hmem rfl,
    hrow _ (List.mem_cons_of_mem _ List.mem_cons_self) _ List.mem_cons_self rfl⟩

end Diff

end Redline
