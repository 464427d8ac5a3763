import Redline.Proofs.Command.Placement
import Redline.Report.Drawing

/-! # Drawings that are finished

A report of a problem that is placed in its text is drawn to the end (`obstacle_draw`) if the text
has a line at all: the ends of its label add up to a word, and the middle between them is not before
the line that the label is in.  The empty text has no line, and a problem placed in it is at its
start, so its report stops behind the headline (`draw_empty`). -/

namespace Redline.Report

/-! ### Marks and lines -/

/-- The ends of the label are in order and add up to a word. -/
def Label.Drawable (l : Label) : Prop :=
  l.span.start ≤ l.span.stop ∧ l.span.start + l.span.stop < wordBound

theorem exists_inlineMark {line : Line} {l : Label} (h : l.Drawable)
    (hline : line.offset ≤ l.span.start) : ∃ m, inlineMark line l = .ok m := by
  obtain ⟨hle, hword⟩ := h
  have hmiddle : ¬ (l.span.start + l.span.stop) / 2 < line.offset := by omega
  unfold inlineMark middleColumn
  rw [if_neg (by omega), if_neg hmiddle]
  exact ⟨_, rfl⟩

theorem exists_mapM {ε α β : Type} {f : α → Except ε β} {as : List α}
    (h : ∀ a ∈ as, ∃ b, f a = .ok b) : ∃ bs, as.mapM f = .ok bs := by
  induction as with
  | nil => exact ⟨[], rfl⟩
  | cons a as ih =>
      obtain ⟨⟨b, hb⟩, has⟩ := List.forall_mem_cons.1 h
      obtain ⟨bs, hbs⟩ := ih has
      refine ⟨b :: bs, ?_⟩
      rw [List.mapM_cons, hb, hbs]
      rfl

theorem exists_marksOf (source : Source) {labels : List Label} (h : ∀ l ∈ labels, l.Drawable)
    (multiline : List Label) (margin : Option Mark) (line : Line) :
    ∃ marks, marksOf source labels multiline margin line = .ok marks := by
  have hmarks : ∀ l ∈ labels.filter (fun l => line.offset ≤ l.span.start &&
      l.span.stop ≤ line.stop && !l.isMultiline source), ∃ m, inlineMark line l = .ok m := by
    intro l hl
    obtain ⟨hmem, hin⟩ := List.mem_filter.1 hl
    simp only [Bool.and_eq_true, decide_eq_true_eq] at hin
    exact exists_inlineMark (h l hmem) hin.1.1
  obtain ⟨inner, hinner⟩ := exists_mapM hmarks
  unfold marksOf
  simp only [hinner]
  exact ⟨_, rfl⟩

theorem obstacle_drawLines (source : Source) {labels : List Label} (h : ∀ l ∈ labels, l.Drawable)
    (multiline : List Label) (width : Nat) : ∀ (lines : List Line) (number : Nat) (leftOut : Bool),
      (drawLines source labels multiline width number lines leftOut).obstacle = none
  | [], _, _ => rfl
  | line :: rest, number, leftOut => by
      obtain ⟨marks, hmarks⟩ :=
        exists_marksOf source h multiline (line.marginMark multiline) line
      unfold drawLines
      simp only [hmarks, Drawing.finished_append]
      exact obstacle_drawLines source h multiline width rest _ _

/-! ### Reports -/

/-- A label alone in the margin is no obstacle. -/
theorem exists_inMargin (source : Source) (l : Label) : ∃ ls, inMargin source [l] = .ok ls := by
  have hlength := List.length_filter_le (·.isMultiline source) [l]
  unfold inMargin
  rw [if_neg]
  · exact ⟨_, rfl⟩
  · simp only [Bool.and_eq_true, decide_eq_true_eq, not_and]
    intro hlt
    exact absurd hlength (by rw [List.length_singleton]; omega)

/-- A problem about one stretch has one label. -/
theorem exists_labels {p : Problem String} {n : Nat} (h : p.Placed n) :
    ∃ l, labels p = [l] ∧ l.span = p.span := by
  unfold labels
  cases hreason : p.reason with
  | unexpected => exact ⟨_, rfl, rfl⟩
  | unclosed opened delimiter => exact absurd hreason (h.single _ _)
  | custom message => exact ⟨_, rfl, rfl⟩

theorem ofString_ne_nil {input : String} (h : input ≠ "") : Source.ofString input ≠ [] := by
  have hpieces : pieces input.toList ≠ [] := by
    cases hinput : input.toList with
    | nil => exact absurd (String.toList_eq_nil_iff.1 hinput) h
    | cons c cs =>
        unfold pieces
        split
        · exact List.cons_ne_nil _ _
        · split <;> exact List.cons_ne_nil _ _
  obtain ⟨q, qs, hqs⟩ := List.exists_cons_of_ne_nil hpieces
  rw [Source.ofString, hqs]
  exact List.cons_ne_nil _ _

theorem obstacle_draw {p : Problem String} {input : String} (hp : p.Placed input.toList.length)
    (hne : input ≠ "") (hlen : input.toList.length < wordBound / 2) :
    (draw p input).obstacle = none := by
  obtain ⟨l, hl, hspan⟩ := exists_labels hp
  have hdrawable : ∀ k ∈ [l], k.Drawable := by
    refine List.forall_mem_singleton.2 ?_
    unfold Label.Drawable
    rw [hspan]
    obtain ⟨hle, hstop | hend⟩ := hp.fits
    · exact ⟨hle, by omega⟩
    · rw [hend]
      exact ⟨Nat.le_succ _, by simp only; omega⟩
  obtain ⟨multiline, hmultiline⟩ := exists_inMargin (Source.ofString input) l
  have hsource : (Source.ofString input).isEmpty = false :=
    List.isEmpty_eq_false_iff.2 (ofString_ne_nil hne)
  unfold draw drawFrame
  simp only [hsource, Bool.false_and, hl, hmultiline, Drawing.finished_append,
    obstacle_drawLines _ hdrawable]
  rfl

theorem draw_empty {p : Problem String} (hp : p.Placed 0) :
    draw p "" = ⟨[headline p], some .noLine⟩ := by
  obtain ⟨l, hl, hspan⟩ := exists_labels hp
  have hstart : l.span.start = 0 := by
    obtain ⟨hle, hstop | hend⟩ := hp.fits
    · rw [hspan]
      omega
    · rw [hspan, hend]
  unfold draw
  rw [hl]
  simp [hstart, Source.ofString, pieces, Source.ofPieces, Drawing.stopped]

end Redline.Report
