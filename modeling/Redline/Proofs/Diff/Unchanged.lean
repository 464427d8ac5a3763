import Redline.Proofs.Diff.Alignment
import Redline.Proofs.Term.Printing

/-! # Terms that have not changed

The diff of a term with itself is rendered as the term is, with nothing in the place of an absent
subterm: the diff has the layers of the term, so the two renderings differ in their leaves alone
(`rendering_between_self`).  In a well-named term no fragment but an absent subterm is written `_`,
so what is left of the document of the term without these fragments is the document of the diff
(`rendering_erase`).  A term without absent subterms is rendered as itself, and read back.  Main
statement: `doc_between_self`. -/

namespace Redline

/-! ### Documents without a fragment -/

namespace Doc

mutual

/-- The document with nothing in the place of each fragment that is the text `s`. -/
def erase (s : String) : Doc → Doc
  | empty => empty
  | text x => if x = s then empty else text x
  | row docs => row (eraseAll s docs)
  | wrap opening inner closing => wrap opening (erase s inner) closing

def eraseAll (s : String) : List Doc → List Doc
  | [] => []
  | d :: ds => erase s d :: eraseAll s ds

end

variable {s : String}

theorem erase_text {x : String} (h : x ≠ s) : (text x).erase s = text x := by
  rw [erase, if_neg h]

theorem erase_row (docs : List Doc) : (row docs).erase s = row (docs.map (erase s)) := by
  rw [erase]
  induction docs with
  | nil => rfl
  | cons d ds ih => rw [eraseAll, row.inj ih, List.map_cons]

theorem erase_join {separator : String} (h : separator ≠ s) (docs : List Doc) :
    (join separator docs).erase s = join separator (docs.map (erase s)) := by
  rw [join, join, erase_row]
  congr 1
  induction docs with
  | nil => rfl
  | cons d ds ih =>
      cases ds with
      | nil => rfl
      | cons e ds => simpa [erase_text h] using ih

end Doc

/-! ### Layers without a fragment -/

/-- The rendering with nothing in the place of each underscore. -/
def Rendering.erase (r : Rendering) : Rendering := ⟨r.doc.erase "_", r.isOpen⟩

theorem Rendering.doc_erase (r : Rendering) : r.erase.doc = r.doc.erase "_" := rfl

theorem Rendering.closed_erase (r : Rendering) : r.erase.closed = r.closed.erase "_" := by
  unfold closed erase
  split <;> rfl

/-- No value is written as an underscore. -/
theorem Value.render_ne_underscore (v : Value) : v.render ≠ "_" := by
  cases v with
  | unit => decide
  | bool b => cases b <;> decide
  | nat n =>
      intro h
      have hmem : '_' ∈ Nat.toDigits 10 n.toNat := by
        rw [← Nat.toList_repr, ← Value.render, h]
        exact List.mem_singleton_self _
      exact absurd (Nat.isDigit_of_mem_toDigits (by decide) (by decide) hmem) (by decide)
  | text s =>
      intro h
      have hquote := congrArg (·.toList.head?) h
      rw [Value.render, Text.literal, Text.toList_quoteBy] at hquote
      cases hquote

namespace Layer

theorem doc_erase {l : Layer Doc} (h : ∀ x ∈ l.names, x ≠ "_") :
    (l.map (Doc.erase "_")).doc = l.doc.erase "_" := by
  have hcomma (docs : List Doc) :
      (Doc.join ", " docs).erase "_" = .join ", " (docs.map (Doc.erase "_")) :=
    Doc.erase_join (by decide) docs
  cases l with
  | apply callee arguments => simp [map, doc, Doc.erase_row, Doc.erase, hcomma]
  | lambda parameters body =>
      cases parameters with
      | nil => simp [map, doc, Doc.erase_row, Doc.erase]
      | cons p ps => simp [map, doc, Doc.erase_row, Doc.erase, hcomma]
  | assign x value =>
      have hx := h x List.mem_cons_self
      simp [map, doc, Doc.erase_row, Doc.erase, hx]
  | name x => exact (Doc.erase_text (h x List.mem_cons_self)).symm
  | literal v => exact (Doc.erase_text v.render_ne_underscore).symm
  | group tag value => simp [map, doc, Doc.erase_row, Doc.erase, hcomma]

theorem childDocs_erase (l : Layer Rendering) :
    (l.map Rendering.erase).childDocs = l.childDocs.map (Doc.erase "_") := by
  cases l <;> simp [map, asRef, childDocs, Rendering.closed_erase, Rendering.doc_erase]

theorem rendering_erase {l : Layer Rendering} (h : ∀ x ∈ l.names, x ≠ "_") :
    (l.map Rendering.erase).rendering = l.rendering.erase := by
  have hnames : ∀ x ∈ l.childDocs.names, x ≠ "_" := by
    cases l <;> exact h
  rw [rendering, rendering, childDocs_erase, doc_erase hnames, isOpen_map]
  rfl

end Layer

/-! ### Terms -/

namespace Term

/-- No subterm is absent. -/
inductive Complete : Term → Prop
  | node {l : Layer Term} : (∀ c ∈ l.children, Complete c) → Complete (.node l)

/-- What stands for absent subterms does not matter where there are none. -/
theorem Complete.rendering {t : Term} (h : t.Complete) (f g : Unit → Doc) :
    Tree.rendering f t = Tree.rendering g t := by
  induction h with
  | node _ ih =>
      rw [Tree.rendering_node, Tree.rendering_node, Layer.map_congr ih]

/-- Of the fragments of a well-named term only absent subterms are an underscore. -/
theorem WellNamed.rendering_erase {t : Term} (h : t.WellNamed) :
    Tree.rendering (fun _ => .empty) t = (Tree.rendering (fun _ => .text "_") t).erase := by
  induction h with
  | absent => rfl
  | @node l hnames _ ih =>
      have hwords : ∀ x ∈ (l.map (Tree.rendering fun _ => .text "_")).names, x ≠ "_" := by
        rw [Layer.names_map]
        rintro x hx rfl
        exact (hnames "_" hx).2 List.mem_cons_self
      rw [Tree.rendering_node, Tree.rendering_node, ← Layer.rendering_erase hwords, Layer.map_map]
      exact congrArg Layer.rendering (Layer.map_congr ih)

end Term

namespace Diff

theorem isOpen_between_self (t : Term) : (between t t).isOpen = t.isOpen := by
  rw [between_self]
  cases t with
  | leaf a => rfl
  | node l => rw [Tree.map_node, Tree.isOpen, Tree.isOpen, Layer.isOpen_map]

theorem rendering_between_self (t : Term) :
    (between t t).rendering changeDoc = Tree.rendering (fun _ => .empty) t := by
  rw [between_self, Tree.rendering, Tree.fold_map]
  rfl

/-- A term that has not changed is rendered as itself, with nothing in the place of its absent
subterms.  Without these it is read back from its markup, if its names can be read. -/
theorem doc_between_self (t : Term) :
    (between t t).isOpen = t.isOpen ∧
    (between t t).doc = (t.rendering fun _ => .empty).doc ∧
    (t.WellNamed → (between t t).doc = t.doc.erase "_") ∧
    (t.Complete → (between t t).doc = t.doc ∧ (between t t).render = t.render) ∧
    (t.Complete → t.WellNamed →
      Term.parse (between t t).render = .ok ⟨⟨0, t.render.toList.length⟩, t⟩) := by
  have hdoc : (between t t).doc = (t.rendering fun _ => .empty).doc := by
    rw [doc, rendering_between_self]
  have hsame (h : t.Complete) : (between t t).doc = t.doc := by
    rw [hdoc, h.rendering _ fun _ => .text "_"]
    rfl
  refine ⟨isOpen_between_self t, hdoc, fun h => ?_, fun h => ⟨hsame h, ?_⟩, fun h hnames => ?_⟩
  · rw [hdoc, h.rendering_erase]
    rfl
  · rw [render, hsame h]
    rfl
  · rw [render, hsame h]
    exact Term.parse_render hnames

/-- A quoted underscore is kept, and of absent elements the comma between them. -/
theorem doc_between_self_underscores :
    (Term.Complete (.node (.assign "x" (.node (.literal (.text "_"))))) ∧
      Term.WellNamed (.node (.assign "x" (.node (.literal (.text "_"))))) ∧
      Term.parse (between (.node (.assign "x" (.node (.literal (.text "_")))))
        (.node (.assign "x" (.node (.literal (.text "_")))))).render =
        .ok ⟨⟨0, 7⟩, .node (.assign "x" (.node (.literal (.text "_"))))⟩) ∧
    Term.WellNamed (.node (.apply Term.absent [Term.absent, Term.absent])) ∧
    (between (.node (.apply Term.absent [Term.absent, Term.absent]))
      (.node (.apply Term.absent [Term.absent, Term.absent]))).doc =
      (Term.doc (.node (.apply Term.absent [Term.absent, Term.absent]))).erase "_" ∧
    ((Term.doc (.node (.apply Term.absent [Term.absent, Term.absent]))).erase "_").render =
      "(, )" := by
  have hcomplete : Term.Complete (.node (.assign "x" (.node (.literal (.text "_"))))) :=
    .node (List.forall_mem_singleton.2 (.node nofun))
  have hassign : Term.WellNamed (.node (.assign "x" (.node (.literal (.text "_"))))) :=
    .node (List.forall_mem_singleton.2 ⟨⟨'x', [], rfl, rfl, nofun⟩, by decide⟩)
      (List.forall_mem_singleton.2 (.node nofun nofun))
  have habsent : Term.WellNamed (.node (.apply Term.absent [Term.absent, Term.absent])) :=
    .node nofun (List.forall_mem_cons.2 ⟨.absent, List.forall_mem_cons.2
      ⟨.absent, List.forall_mem_singleton.2 .absent⟩⟩)
  exact ⟨⟨hcomplete, hassign, (doc_between_self _).2.2.2.2 hcomplete hassign⟩, habsent,
    (doc_between_self _).2.2.1 habsent, rfl⟩

end Diff

end Redline
