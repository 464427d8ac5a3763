import Redline.Command
import Redline.Proofs.Parsing.Telling
import Redline.Proofs.Token.Scan

/-! # Where problems are placed

Each problem is about one stretch of the text that has been refused (`Problem.Placed`), or about the
place behind it.  That holds for the lexer, whose failures stand at characters, and for the parsers
of terms, whose failures stand at tokens.  A command refuses what one of these refuses, or its
argument as a whole (`Command.Refuses`), so it holds for every command (`placed_of_run`). -/

namespace Redline

open Parsing Parsing.Parser

/-- The span lies in a text of `n` characters or is the place behind it. -/
def Span.Fits (n : Nat) (s : Span) : Prop := s.start ≤ s.stop ∧ (s.stop ≤ n ∨ s = ⟨n, n + 1⟩)

theorem Span.fits_of_le {n : Nat} {s : Span} (h : s.start ≤ s.stop) (hn : s.stop ≤ n) : s.Fits n :=
  ⟨h, .inl hn⟩

/-- The problem is about one stretch of a text of `n` characters. -/
structure Problem.Placed {σ : Type} (n : Nat) (p : Problem σ) : Prop where
  fits : p.span.Fits n
  single : ∀ opened delimiter, p.reason ≠ .unclosed opened delimiter

namespace Problem

variable {σ τ : Type} {n : Nat}

theorem Placed.map {p : Problem σ} (h : p.Placed n) (f : σ → τ) : (p.map f).Placed n := by
  refine ⟨h.fits, fun opened delimiter hreason => ?_⟩
  have hp : p.reason.map f = .unclosed opened delimiter := hreason
  cases hr : p.reason with
  | unclosed opened' delimiter' => exact h.single _ _ hr
  | unexpected => rw [hr] at hp; cases hp
  | custom message => rw [hr] at hp; cases hp

theorem placed_custom {span : Span} (h : span.Fits n) (message : String) :
    (custom span message : Problem σ).Placed n := ⟨h, nofun⟩

end Problem

/-- Failures behind places of one kind are placed, whatever the combinators do with them. -/
theorem settled_placed {σ : Type} {n : Nat} {P : Cursor σ → Prop}
    (hP : ∀ {c c' : Cursor σ} {vs : List σ}, c.Passes vs c' → P c → P c')
    (hhere : ∀ {c : Cursor σ}, P c → c.here.Fits n) :
    Failure.Settled fun c f => P c → f.problem.Placed n where
  unexpected _ _ hc := ⟨hhere hc, nofun⟩
  behind hpass hf hc := hf (hP hpass hc)
  further := by
    intro c f g hf hg hc
    unfold Failure.further
    split
    · exact hg hc
    · split
      · exact hf hc
      · exact ⟨(hf hc).fits, (hf hc).single⟩
  labelled := by
    intro c f label hf hc
    exact ⟨(hf hc).fits, (hf hc).single⟩

/-! ### Characters -/

namespace Token.Lexer

/-- A place in a source of `n` characters. -/
def At (n : Nat) (c : Cursor Char) : Prop := ∃ m cs, c = place n m cs ∧ m + cs.length = n

theorem At.of_passes {n : Nat} {c c' : Cursor Char} {vs : List Char} (h : c.Passes vs c')
    (hc : At n c) : At n c' := by
  obtain ⟨m, cs, rfl, hm⟩ := hc
  obtain ⟨rest, rfl, rfl⟩ := eq_place_of_passes h
  rw [List.length_append] at hm
  exact ⟨m + vs.length, rest, rfl, by omega⟩

theorem At.fits_here {n : Nat} {c : Cursor Char} (hc : At n c) : c.here.Fits n := by
  obtain ⟨m, cs, rfl, hm⟩ := hc
  cases cs with
  | nil => exact Span.fits_of_le (Nat.le_refl n) (Nat.le_refl n)
  | cons d ds =>
      rw [List.length_cons] at hm
      refine Span.fits_of_le (?_ : m ≤ m + 1) (?_ : m + 1 ≤ n)
      · omega
      · omega

/-- The failures of the lexer. -/
abbrev Located (n : Nat) (c : Cursor Char) (f : Failure Char) : Prop :=
  At n c → f.problem.Placed n

instance (n : Nat) : Failure.Settled (Located n) :=
  settled_placed At.of_passes At.fits_here

/-- A check of what has been read finds its problems there. -/
theorem Tells.checkLocated {α β : Type} {n : Nat} {p : Parser Char α}
    {f : Spanned α → Except (Problem Char) β} (hp : p.Tells (Located n))
    (hread : ∀ {c c' : Cursor Char} {a : α}, p.read c = some (a, c') →
      ∃ l, l ≠ [] ∧ c.Passes l c')
    (hf : ∀ (x : Spanned α) (problem : Problem Char), f x = .error problem →
      problem.span = x.span ∧ ∀ opened delimiter, problem.reason ≠ .unclosed opened delimiter) :
    (p.check f).Tells (Located n) := by
  refine .check hp fun c c' x problem hx hproblem => ?_
  rw [read_spanned] at hx
  simp only [Option.map_eq_some_iff, Prod.exists, Prod.mk.injEq] at hx
  obtain ⟨a, c₁, ha, rfl, rfl⟩ := hx
  obtain ⟨hspan, hreason⟩ := hf _ problem hproblem
  obtain ⟨l, hl, hpass⟩ := hread ha
  rintro ⟨m, cs, rfl, hm⟩
  obtain ⟨rest, rfl, rfl⟩ := eq_place_of_passes hpass
  refine ⟨?_, hreason⟩
  obtain ⟨d, ds, rfl⟩ := List.exists_cons_of_ne_nil hl
  rw [List.length_append] at hm
  rw [hspan]
  refine Span.fits_of_le (?_ : m ≤ m + (d :: ds).length) (?_ : m + (d :: ds).length ≤ n)
  · omega
  · omega

section Settled

variable {T : Cursor Char → Failure Char → Prop} [Failure.Settled T]

theorem tells_word : word.Tells T :=
  .bind (.satisfy _) fun _ => .bind (.repeated (.satisfy _)) fun _ => .pure _

theorem tells_digits : digits.Tells T := by
  refine .orElse ?_ ?_
  · exact .bind (.satisfy _) fun _ => .bind (.repeated (.satisfy _)) fun _ => .pure _
  · exact .bind (.just _) fun _ => .pure _

theorem tells_escape : escape.Tells T := by
  refine .bind (.just _) fun _ => .firstOf ?_
  simp only [List.mem_cons, List.not_mem_nil, or_false, forall_eq_or_imp, forall_eq]
  refine ⟨.just _, .just _, ?_, ?_⟩
  · exact .bind (.just _) fun _ => .pure _
  · exact .bind (.just _) fun _ => .pure _

theorem tells_text : text.Tells T := by
  have hquoted : quoted.Tells T := .orElse (.satisfy _) tells_escape
  exact .labelled _ <|
    .bind (.just _) fun _ => .bind hquoted.repeated fun _ => .bind (.just _) fun _ => .pure _

end Settled

theorem tells_keyword (n : Nat) (k : String) : (keyword k).Tells (Located n) := by
  refine Tells.checkLocated tells_word (fun hr => ?_) fun w problem hproblem => ?_
  · obtain ⟨hpass, ⟨a, cs, hw, -⟩, -⟩ := read_word_eq_some.1 hr
    exact ⟨_, hw ▸ List.cons_ne_nil a cs, hpass⟩
  · split at hproblem
    · cases hproblem
    · cases hproblem
      exact ⟨rfl, nofun⟩

theorem tells_natural (n : Nat) : natural.Tells (Located n) := by
  refine Tells.checkLocated tells_digits (fun hr => ?_) fun ds problem hproblem => ?_
  · obtain ⟨hpass, hnum, -⟩ := read_digits_eq_some.1 hr
    obtain ⟨d, ds, rfl, -⟩ := hnum.head
    exact ⟨_, List.cons_ne_nil d ds, hpass⟩
  · split at hproblem
    · cases hproblem
    · cases hproblem
      exact ⟨rfl, nofun⟩

theorem tells_token (n : Nat) : token.Tells (Located n) := by
  refine .firstOf ?_
  intro p hp
  simp only [List.mem_append, List.mem_map, List.mem_cons, List.not_mem_nil, or_false] at hp
  rcases hp with (⟨s, -, rfl⟩ | ⟨k, -, rfl⟩) | rfl | rfl | rfl
  · exact .bind (.just _) fun _ => .pure _
  · exact .bind (tells_keyword n _) fun _ => .pure _
  · exact tells_natural n
  · exact tells_text
  · exact .bind tells_word fun _ => .pure _

theorem tells_tokens (n : Nat) : tokens.Tells (Located n) :=
  .repeated (.padded _ (tells_token n).spanned)

end Token.Lexer

open Token.Lexer in
theorem placed_of_scan {source : String} {problem : Problem Char}
    (h : Token.scan source = .error problem) : problem.Placed source.toList.length := by
  obtain ⟨f, rfl, hf⟩ := (tells_tokens source.toList.length).parse h
  exact hf ⟨0, source.toList, rfl, Nat.zero_add _⟩

/-! ### Tokens -/

/-- Tokens lie in their source. -/
theorem span_le_of_scan {source : String} {tokens : List (Spanned Token)}
    (h : Token.scan source = .ok tokens) :
    ∀ x ∈ tokens, x.span.start ≤ x.span.stop ∧ x.span.stop ≤ source.toList.length := by
  intro x hx
  have hin := (Token.lexed_of_scan h).spread.inOrder.2 x hx
  rw [Nat.zero_add] at hin
  exact ⟨Nat.le_of_lt hin.1, hin.2⟩

namespace Term.Grammar

/-- A place among tokens of a source of `n` characters. -/
def Among (n : Nat) (c : Cursor Token) : Prop :=
  (∀ x ∈ c.rest, x.span.start ≤ x.span.stop ∧ x.span.stop ≤ n) ∧ c.ending = ⟨n, n + 1⟩

theorem Among.of_passes {n : Nat} {c c' : Cursor Token} {vs : List Token} (h : c.Passes vs c')
    (hc : Among n c) : Among n c' := by
  obtain ⟨hsuffix, hending⟩ := Cursor.suffix_of_passes h
  exact ⟨fun x hx => hc.1 x (hsuffix.mem hx), hending.trans hc.2⟩

theorem Among.fits_here {n : Nat} {c : Cursor Token} (hc : Among n c) : c.here.Fits n := by
  obtain ⟨hrest, hending⟩ := hc
  unfold Cursor.here
  cases hc : c.rest with
  | nil =>
      rw [hending]
      exact ⟨Nat.le_succ n, .inr rfl⟩
  | cons x xs =>
      obtain ⟨hle, hn⟩ := hrest x (hc ▸ List.mem_cons_self)
      exact Span.fits_of_le hle hn

/-- The failures of the parsers of terms. -/
abbrev Located (n : Nat) (c : Cursor Token) (f : Failure Token) : Prop :=
  Among n c → f.problem.Placed n

instance (n : Nat) : Failure.Settled (Located n) :=
  settled_placed Among.of_passes Among.fits_here

section Settled

variable {T : Cursor Token → Failure Token → Prop} [Failure.Settled T]
variable {p : Parser Token Term} (hp : p.Tells T)

include hp

theorem tells_termList : (termList p).Tells T := .sepEndBy hp (.just _)

theorem tells_group : (group p).Tells T := by
  have htag : (inBrackets (termList p)).Tells T := .between _ _ (tells_termList hp)
  have hvalue : (inBraces p).Tells T := .between _ _ hp
  exact .labelled _ <| .bind htag fun _ => .bind hvalue fun _ => .pure _

theorem tells_atom : (atom p).Tells T := by
  refine .firstOf ?_
  simp only [List.mem_cons, List.not_mem_nil, or_false, forall_eq_or_imp, forall_eq]
  refine ⟨?_, ?_, ?_, tells_group hp, .between _ _ hp⟩
  · exact .labelled _ (.select _)
  · exact .labelled _ <| .bind (.just _) fun _ => .pure _
  · exact .labelled _ <| .bind (.select _) fun _ => .pure _

theorem tells_apply : (apply p).Tells T := by
  have hcall : (inParens (termList p)).Tells T := .between _ _ (tells_termList hp)
  exact .bind (tells_atom hp) fun _ => .bind hcall.repeated fun _ => .pure _

theorem tells_lambda : (lambda p).Tells T :=
  .labelled _ <|
    .bind (.just _) fun _ =>
      .bind (.sepBy (tells_apply hp) (.just _)) fun _ =>
        .bind (.just _) fun _ => .bind hp fun _ => .pure _

theorem tells_assign : (assign p).Tells T :=
  .labelled _ <|
    .bind (.select _) fun _ => .bind (.just _) fun _ => .bind hp fun _ => .pure _

theorem tells_termOver : (termOver p).Tells T := by
  refine .firstOf ?_
  simp only [List.mem_cons, List.not_mem_nil, or_false, forall_eq_or_imp, forall_eq]
  exact ⟨tells_lambda hp, tells_assign hp, tells_apply hp⟩

omit hp

theorem tells_term : term.Tells T := by
  have hfix : (fix termOver).Tells T := .fix fun _ => tells_termOver
  exact (hfix.labelled "term").spanned

theorem tells_terms : terms.Tells T := .sepEndBy tells_term (.just _)

end Settled

end Term.Grammar

open Term.Grammar in
theorem placed_of_parseBy {α : Type} {p : Parser Token α} {source : String}
    {problem : Problem String} (hp : p.Tells (Located source.toList.length))
    (h : Term.parseBy p source = .error problem) : problem.Placed source.toList.length := by
  rcases error_of_bind h with hscan | ⟨tokens, hscan, hparse⟩
  · obtain ⟨refusal, hrefusal, rfl⟩ := error_of_mapError hscan
    exact (placed_of_scan hrefusal).map _
  · have htokens : Token.scan source = .ok tokens := ok_of_mapError hscan
    obtain ⟨refusal, hrefusal, rfl⟩ := error_of_mapError hparse
    obtain ⟨f, rfl, hf⟩ := hp.parse hrefusal
    exact (hf ⟨span_le_of_scan htokens, rfl⟩).map _

/-! ### Commands -/

namespace Command

/-- The argument is refused by the lexer, by a parser of terms, or as a whole. -/
inductive Refuses (argument : String) : Problem String → Prop
  | scan {problem : Problem Char} : Token.scan argument = .error problem →
      Refuses argument (problem.map Char.toString)
  | parse {tokens : List (Spanned Token)} {problem : Problem String} :
      Token.scan argument = .ok tokens → Term.parse argument = .error problem →
        Refuses argument problem
  | parseAll {tokens : List (Spanned Token)} {problem : Problem String} :
      Token.scan argument = .ok tokens → Term.parseAll argument = .error problem →
        Refuses argument problem
  | whole (message : String) : Refuses argument (wholeArgument argument message)

variable {argument : String} {problem : Problem String}

theorem refuses_of_parse (h : Term.parse argument = .error problem) :
    Refuses argument problem := by
  rcases error_of_bind h with hscan | ⟨tokens, hscan, -⟩
  · obtain ⟨refusal, hrefusal, rfl⟩ := error_of_mapError hscan
    exact .scan hrefusal
  · exact .parse (ok_of_mapError hscan) h

theorem refuses_of_parseAll (h : Term.parseAll argument = .error problem) :
    Refuses argument problem := by
  rcases error_of_bind h with hscan | ⟨tokens, hscan, -⟩
  · obtain ⟨refusal, hrefusal, rfl⟩ := error_of_mapError hscan
    exact .scan hrefusal
  · exact .parseAll (ok_of_mapError hscan) h

/-- A command on two terms refuses what is no pair of terms. -/
theorem refuses_of_pair {f : Term × Term → Output}
    (h : (pair argument >>= fun p => .ok (f p)) = .error problem) : Refuses argument problem := by
  rcases error_of_bind h with hpair | ⟨_, -, hrest⟩
  · rcases error_of_bind hpair with hparse | ⟨terms, -, hterms⟩
    · exact refuses_of_parseAll hparse
    · split at hterms
      · cases hterms
      · cases hterms
        exact .whole _
  · cases hrest

theorem refuses_of_run {command : Command} (h : command.run argument = .error problem) :
    Refuses argument problem := by
  cases command with
  | tokens =>
      rcases error_of_bind h with hscan | ⟨_, -, hrest⟩
      · obtain ⟨refusal, hrefusal, rfl⟩ := error_of_mapError hscan
        exact .scan hrefusal
      · cases hrest
  | term =>
      rcases error_of_bind h with hparse | ⟨_, -, hrest⟩
      · exact refuses_of_parse hparse
      · cases hrest
  | markup => exact refuses_of_pair h
  | outline => exact refuses_of_pair h
  | cost => exact refuses_of_pair h
  | ranking =>
      rcases error_of_bind h with hparse | ⟨terms, -, hrest⟩
      · exact refuses_of_parseAll hparse
      · cases terms with
        | nil =>
            cases hrest
            exact .whole _
        | cons old candidates => cases hrest
  | help => cases h
  | unknown word => cases h

theorem Refuses.placed (h : Refuses argument problem) :
    problem.Placed argument.toList.length := by
  cases h with
  | scan h => exact (placed_of_scan h).map _
  | parse _ h => exact placed_of_parseBy Term.Grammar.tells_term h
  | parseAll _ h => exact placed_of_parseBy Term.Grammar.tells_terms h
  | whole message =>
      have hle : 0 ≤ argument.toList.length := Nat.zero_le _
      exact Problem.placed_custom (Span.fits_of_le hle (Nat.le_refl argument.toList.length)) message

/-- What a command refuses is placed in its argument. -/
theorem placed_of_run {command : Command} (h : command.run argument = .error problem) :
    problem.Placed argument.toList.length := (refuses_of_run h).placed

end Command

end Redline
