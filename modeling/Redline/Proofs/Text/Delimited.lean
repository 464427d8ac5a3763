import Redline.Text.Outline
import Redline.Text.Quoted

/-! # Delimited texts

A notation says where it ends when no text starts with what is written for two different values
(`Delimited`).  Texts between quotation marks do, since a quotation mark inside is escaped and each
escape says where it ends (`delimited_visible`); so do lists between brackets whose items do
(`delimited_listed`).  A constructor with its fields is told from others by what stands in front of
its parenthesis (`built_append_inj`). -/

namespace Redline.Text

/-- A text that starts with what is written for `a` starts with no other, and goes on in one way. -/
def Delimited {α : Type} (written : α → String) (a : α) : Prop :=
  ∀ (b : α) (r s : List Char),
    (written a).toList ++ r = (written b).toList ++ s → a = b ∧ r = s

/-- What stands in front of the first item that does not satisfy `p`. -/
theorem append_inj_of_stops {σ : Type} {p : σ → Bool} {xs ys r s : List σ}
    (hxs : ∀ x ∈ xs, p x = true) (hys : ∀ y ∈ ys, p y = true)
    (hr : ∀ x, r.head? = some x → p x = false) (hs : ∀ x, s.head? = some x → p x = false)
    (h : xs ++ r = ys ++ s) : xs = ys ∧ r = s := by
  have hstop : ∀ {zs t : List σ}, (∀ z ∈ zs, p z = true) →
      (∀ x, t.head? = some x → p x = false) → (zs ++ t).takeWhile p = zs := by
    intro zs t hzs ht
    rw [List.takeWhile_append_of_pos hzs]
    cases t with
    | nil => simp
    | cons x t => simp [ht x rfl]
  have hsame : xs = ys := by rw [← hstop hxs hr, h, hstop hys hs]
  subst hsame
  exact ⟨rfl, List.append_cancel_left h⟩

/-- What stands in front of the first `x`. -/
theorem append_cons_inj {σ : Type} [DecidableEq σ] {x : σ} {xs ys r s : List σ} (hxs : x ∉ xs)
    (hys : x ∉ ys) (h : xs ++ x :: r = ys ++ x :: s) : xs = ys ∧ r = s := by
  have hne : ∀ {zs : List σ}, x ∉ zs → ∀ z ∈ zs, (z != x) = true := by
    intro zs hzs z hz
    exact bne_iff_ne.2 fun e => hzs (e ▸ hz)
  have hstop : ∀ t : List σ, ∀ y, (x :: t).head? = some y → (y != x) = false := by
    rintro t _ ⟨⟩
    exact bne_self_eq_false x
  obtain ⟨hsame, hrest⟩ := append_inj_of_stops (hne hxs) (hne hys) (hstop r) (hstop s) h
  exact ⟨hsame, (List.cons.inj hrest).2⟩

/-! ### Hexadecimal digits -/

def hexValue (c : Char) : Nat := if c.isDigit then c.toNat - '0'.toNat else c.toNat - 'a'.toNat + 10

/-- Hexadecimal digits say which number they stand for. -/
theorem foldl_hexValue_toDigits (n : Nat) :
    (Nat.toDigits 16 n).foldl (fun m c => 16 * m + hexValue c) 0 = n := by
  have hdigit : ∀ k < 16, hexValue k.digitChar = k := by decide
  induction n using Nat.base_induction 16 (by decide) with
  | single k hk =>
      rw [Nat.toDigits_of_lt_base hk]
      simpa using hdigit k hk
  | digit m k hk hm ih =>
      rw [← Nat.toDigits_append_toDigits (by decide) hm hk, List.foldl_append, ih,
        Nat.toDigits_of_lt_base hk]
      exact congrArg (16 * m + ·) (hdigit k hk)

theorem brace_notMem_toDigits (n : Nat) : '}' ∉ Nat.toDigits 16 n := by
  induction n using Nat.base_induction 16 (by decide) with
  | single k hk =>
      rw [Nat.toDigits_of_lt_base hk, List.mem_singleton]
      exact (Nat.digitChar_ne '}' rfl).symm
  | digit m k hk hm ih =>
      rw [← Nat.toDigits_append_toDigits (by decide) hm hk, Nat.toDigits_of_lt_base hk,
        List.mem_append, List.mem_singleton]
      rintro (h | h)
      · exact ih h
      · exact Nat.digitChar_ne '}' rfl h.symm

/-! ### Escapes -/

/-- The characters with an escape of one letter. -/
def shortEscapes : List (Char × Char) :=
  [('"', '"'), ('\\', '\\'), ('\x00', '0'), ('\t', 't'), ('\r', 'r'), ('\n', 'n')]

/-- The ways to write a character of a text. -/
inductive Escape : Char → List Char → Prop
  | raw {c : Char} : c ≠ '"' → c ≠ '\\' → Escape c [c]
  | short {c e : Char} : (c, e) ∈ shortEscapes → Escape c ['\\', e]
  | codePoint (c : Char) : Escape c (escapeCodePoint c)

theorem escapeVisible_of_short : ∀ p ∈ shortEscapes, escapeVisible p.1 = ['\\', p.2] := by decide

theorem escape_escapeVisible (c : Char) : Escape c (escapeVisible c) := by
  by_cases h : ∃ e, (c, e) ∈ shortEscapes
  · obtain ⟨e, he⟩ := h
    rw [escapeVisible_of_short _ he]
    exact .short he
  · simp only [shortEscapes, List.mem_cons, Prod.mk.injEq, List.not_mem_nil, or_false, exists_or,
      exists_and_left, exists_eq, and_true, not_or] at h
    obtain ⟨hquote, hbackslash, hnull, htab, hreturn, hfeed⟩ := h
    rw [escapeVisible, if_neg hquote, if_neg hbackslash, if_neg hnull, if_neg htab,
      if_neg hreturn, if_neg hfeed]
    split
    · exact .codePoint c
    · exact .raw hquote hbackslash

theorem shortEscapes_inj {c d e : Char} (hc : (c, e) ∈ shortEscapes) (hd : (d, e) ∈ shortEscapes) :
    c = d := by
  have hletters : ∀ p ∈ shortEscapes, ∀ q ∈ shortEscapes, p.2 = q.2 → p.1 = q.1 := by decide
  exact hletters _ hc _ hd rfl

theorem escapeCodePoint_append_inj {c d : Char} {r s : List Char}
    (h : escapeCodePoint c ++ r = escapeCodePoint d ++ s) : c = d ∧ r = s := by
  simp only [escapeCodePoint, List.append_assoc, List.append_cancel_left_eq,
    List.singleton_append] at h
  obtain ⟨hdigits, hrest⟩ :=
    append_cons_inj (brace_notMem_toDigits c.toNat) (brace_notMem_toDigits d.toNat) h
  refine ⟨Char.toNat_inj.1 ?_, hrest⟩
  rw [← foldl_hexValue_toDigits c.toNat, hdigits, foldl_hexValue_toDigits]

/-- An escape says where it ends. -/
theorem Escape.append_inj {c d : Char} {v w r s : List Char} (hv : Escape c v) (hw : Escape d w)
    (h : v ++ r = w ++ s) : c = d ∧ r = s := by
  have hcode : ∀ {e : Char}, (e, 'u') ∉ shortEscapes := by simp [shortEscapes]
  cases hv with
  | raw hquote hbackslash =>
      cases hw with
      | raw => exact List.cons.inj h
      | _ => exact absurd (List.cons.inj h).1 hbackslash
  | short hc =>
      cases hw with
      | raw hquote hbackslash => exact absurd (List.cons.inj h).1.symm hbackslash
      | short hd =>
          obtain ⟨-, hletters⟩ := List.cons.inj h
          obtain ⟨rfl, hrest⟩ := List.cons.inj hletters
          exact ⟨shortEscapes_inj hc hd, hrest⟩
      | codePoint =>
          obtain ⟨-, hletters⟩ := List.cons.inj h
          exact absurd ((List.cons.inj hletters).1 ▸ hc) hcode
  | codePoint =>
      cases hw with
      | raw hquote hbackslash => exact absurd (List.cons.inj h).1.symm hbackslash
      | short hd =>
          obtain ⟨-, hletters⟩ := List.cons.inj h
          exact absurd ((List.cons.inj hletters).1 ▸ hd) hcode
      | codePoint => exact escapeCodePoint_append_inj h

theorem Escape.ne_quote {c : Char} {v r s : List Char} (h : Escape c v) : v ++ r ≠ '"' :: s := by
  intro heq
  cases h with
  | raw hquote => exact hquote (List.cons.inj heq).1
  | _ => cases heq

/-! ### Quoted texts -/

theorem flatMap_escapeVisible_inj {r s : List Char} : ∀ {cs ds : List Char},
    cs.flatMap escapeVisible ++ '"' :: r = ds.flatMap escapeVisible ++ '"' :: s → cs = ds ∧ r = s
  | [], [], h => ⟨rfl, (List.cons.inj h).2⟩
  | [], d :: ds, h => by
      rw [List.flatMap_cons, List.append_assoc] at h
      exact absurd h.symm (escape_escapeVisible d).ne_quote
  | c :: cs, [], h => by
      rw [List.flatMap_cons, List.append_assoc] at h
      exact absurd h (escape_escapeVisible c).ne_quote
  | c :: cs, d :: ds, h => by
      rw [List.flatMap_cons, List.flatMap_cons, List.append_assoc, List.append_assoc] at h
      obtain ⟨rfl, hbehind⟩ := (escape_escapeVisible c).append_inj (escape_escapeVisible d) h
      obtain ⟨rfl, hrest⟩ := flatMap_escapeVisible_inj hbehind
      exact ⟨rfl, hrest⟩

theorem delimited_visible (x : String) : Delimited visible x := by
  intro y r s h
  rw [visible, visible, toList_quoteBy, toList_quoteBy] at h
  simp only [List.cons_append, List.append_assoc, List.nil_append, List.cons.injEq,
    true_and] at h
  obtain ⟨hchars, hrest⟩ := flatMap_escapeVisible_inj h
  exact ⟨String.toList_inj.1 hchars, hrest⟩

/-! ### Constructors -/

theorem toList_built (c : String) (xs : List String) :
    (built c xs).toList = c.toList ++ '(' :: ((commaSeparated xs).toList ++ [')']) := by
  simp only [built, String.toList_append, List.append_assoc]
  rfl

/-- Constructors are told apart by what stands in front of the parenthesis. -/
theorem built_append_inj {c d : String} {xs ys : List String} {r s : List Char}
    (hc : '(' ∉ c.toList) (hd : '(' ∉ d.toList)
    (h : (built c xs).toList ++ r = (built d ys).toList ++ s) :
    c = d ∧ (commaSeparated xs).toList ++ ')' :: r = (commaSeparated ys).toList ++ ')' :: s := by
  simp only [toList_built, List.append_assoc, List.cons_append, List.nil_append] at h
  obtain ⟨hname, hfields⟩ := append_cons_inj hc hd h
  exact ⟨String.toList_inj.1 hname, hfields⟩

theorem toList_commaSeparated_cons (x : String) (xs : List String) :
    (commaSeparated (x :: xs)).toList =
      x.toList ++ xs.flatMap fun y => ',' :: ' ' :: y.toList := by
  induction xs generalizing x with
  | nil =>
      rw [commaSeparated, String.intercalate_singleton, List.flatMap_nil, List.append_nil]
  | cons y ys ih =>
      rw [List.flatMap_cons, List.cons_append, List.cons_append, ← ih y, commaSeparated,
        String.intercalate_cons_cons, String.toList_append, String.toList_append,
        List.append_assoc]
      rfl

section Fields

variable {α β : Type} {f : α → String} {g : β → String} {a a' : α} {b b' : β} {r s : List Char}

theorem Delimited.field (ha : Delimited f a)
    (h : (commaSeparated [f a]).toList ++ ')' :: r = (commaSeparated [f a']).toList ++ ')' :: s) :
    a = a' ∧ r = s := by
  rw [commaSeparated, commaSeparated, String.intercalate_singleton,
    String.intercalate_singleton] at h
  obtain ⟨hvalue, hrest⟩ := ha a' _ _ h
  exact ⟨hvalue, (List.cons.inj hrest).2⟩

theorem Delimited.fields (ha : Delimited f a) (hb : Delimited g b)
    (h : (commaSeparated [f a, g b]).toList ++ ')' :: r =
      (commaSeparated [f a', g b']).toList ++ ')' :: s) :
    (a = a' ∧ b = b') ∧ r = s := by
  simp only [toList_commaSeparated_cons, List.flatMap_cons, List.flatMap_nil, List.append_nil,
    List.append_assoc, List.cons_append] at h
  obtain ⟨hfirst, hrest⟩ := ha a' _ _ h
  simp only [List.cons.injEq, true_and] at hrest
  obtain ⟨hsecond, hrest⟩ := hb b' _ _ hrest
  exact ⟨⟨hfirst, hsecond⟩, (List.cons.inj hrest).2⟩

end Fields

/-! ### Lists -/

section Lists

variable {α : Type} {written : α → String}

theorem flatMap_items_inj {r s : List Char} : ∀ {as bs : List α}, (∀ a ∈ as, Delimited written a) →
    (as.map written).flatMap (fun y => ',' :: ' ' :: y.toList) ++ ']' :: r =
      (bs.map written).flatMap (fun y => ',' :: ' ' :: y.toList) ++ ']' :: s → as = bs ∧ r = s
  | [], [], _, h => ⟨rfl, (List.cons.inj h).2⟩
  | [], b :: bs, _, h => by cases h
  | a :: as, [], _, h => by cases h
  | a :: as, b :: bs, has, h => by
      obtain ⟨ha, has⟩ := List.forall_mem_cons.1 has
      simp only [List.map_cons, List.flatMap_cons, List.cons_append, List.append_assoc,
        List.cons.injEq, true_and] at h
      obtain ⟨rfl, hitems⟩ := ha b _ _ h
      obtain ⟨rfl, hrest⟩ := flatMap_items_inj has hitems
      exact ⟨rfl, hrest⟩

/-- Lists are delimited if their items are and none of them starts as a list ends. -/
theorem delimited_listed {as : List α}
    (hstart : ∀ a, ∃ c cs, (written a).toList = c :: cs ∧ c ≠ ']')
    (has : ∀ a ∈ as, Delimited written a) :
    Delimited (fun as => listed (as.map written)) as := by
  have hopen : ∀ (xs : List String) (r : List Char), (listed xs).toList ++ r =
      '[' :: ((commaSeparated xs).toList ++ ']' :: r) := by
    intro xs r
    simp only [listed, String.toList_append, List.append_assoc]
    rfl
  have hitem : ∀ (a : α) (xs : List String) (r s : List Char),
      (commaSeparated (written a :: xs)).toList ++ r ≠ ']' :: s := by
    intro a xs r s h
    obtain ⟨c, cs, ha, hc⟩ := hstart a
    rw [toList_commaSeparated_cons, ha] at h
    exact hc (List.cons.inj h).1
  intro bs r s h
  simp only [hopen, List.cons.injEq, true_and] at h
  cases as with
  | nil =>
      cases bs with
      | nil => exact ⟨rfl, (List.cons.inj h).2⟩
      | cons b bs => exact absurd h.symm (hitem b _ _ _)
  | cons a as =>
      cases bs with
      | nil => exact absurd h (hitem a _ _ _)
      | cons b bs =>
          obtain ⟨ha, has⟩ := List.forall_mem_cons.1 has
          rw [List.map_cons, List.map_cons, toList_commaSeparated_cons,
            toList_commaSeparated_cons, List.append_assoc, List.append_assoc] at h
          obtain ⟨rfl, hitems⟩ := ha b _ _ h
          obtain ⟨rfl, hrest⟩ := flatMap_items_inj has hitems
          exact ⟨rfl, hrest⟩

end Lists

end Redline.Text
