import Redline.Proofs.Command.Refusal
import Redline.Proofs.Diff.Flat
import Redline.Proofs.Diff.Ranking

/-! # Rendered terms as arguments

Terms that are rendered and typed in again are read as they were: with semicolons between them their
renderings spell a list of terms (`exists_parseAll_rendered`), and a command gets behind its word
what stands there (`ofInput_word`).  So the commands show what the diffs of these terms come to.
What is shown can be taken apart again: a ranking has a line for each candidate and three fields
between tabs in each line, whatever is in the texts of the terms (`splitOn_stdout_ranking`,
`splitOn_ranking`).  Main statement: `perform_rendered`. -/

namespace Redline

open Parsing

/-! ### Listed terms -/

namespace Term

open Grammar Token.Lexer

/-- Renderings with semicolons between them spell a list of terms. -/
theorem exists_spelling_listed : ∀ {t : Term} {ts : List Term}, (∀ s ∈ t :: ts, s.WellNamed) →
    ∃ tokens, Spelling ("; ".intercalate ((t :: ts).map render)).toList tokens ∧
      Separated IsTerm (.symbol .semicolon) tokens (t :: ts)
  | t, [], h => by
      rw [List.map_singleton, String.intercalate_singleton]
      exact ⟨_, spelling_render (h t List.mem_cons_self), .one (isTerm_tokens t)⟩
  | t, s :: ts, h => by
      obtain ⟨ht, hrest⟩ := List.forall_mem_cons.1 h
      obtain ⟨tokens, hspelling, hterms⟩ := exists_spelling_listed hrest
      refine ⟨_, ?_, .cons (isTerm_tokens t) hterms⟩
      rw [List.map_cons, List.map_cons, String.intercalate_cons_cons, ← List.map_cons,
        String.toList_append, String.toList_append, List.append_assoc]
      exact (spelling_render ht).appendSymbol .semicolon
        (.afterSymbol .semicolon isBlank_space hspelling)

theorem exists_parseAll_rendered {t : Term} {ts : List Term} (h : ∀ s ∈ t :: ts, s.WellNamed) :
    ∃ xs, parseAll ("; ".intercalate ((t :: ts).map render)) = .ok xs ∧
      xs.map (·.value) = t :: ts := by
  obtain ⟨tokens, hspelling, hterms⟩ := exists_spelling_listed h
  obtain ⟨ss, hscan, rfl, -, -⟩ := hspelling.scan
  exact (exists_parseAll_iff hscan).2 (.row hterms)

/-- No rendering starts with a colon. -/
theorem ofInput_rendered {t : Term} (h : t.WellNamed) (rest : String) :
    Command.ofInput (t.render ++ rest) = (.markup, t.render ++ rest) := by
  obtain ⟨c, cs, hcs, hc⟩ := (spelling_render h).head
  unfold Command.ofInput
  split
  case h_1 behind hinput =>
    rw [String.toList_append, hcs] at hinput
    exact absurd (List.cons.inj hinput).1 hc
  case h_2 => rfl

end Term

namespace Command

/-! ### Inputs -/

/-- A command word with a space behind it. -/
theorem ofInput_word {word : String} (hne : word ≠ "")
    (hblank : word.toList.any Text.isBlank = false) (argument : String) :
    ofInput (":" ++ word ++ " " ++ argument) = (ofWord word, argument) := by
  have hword : ∀ c ∈ word.toList, ¬ Text.isBlank c = true := List.any_eq_false.1 hblank
  have hspace : ∀ c ∈ word.toList, (c != ' ') = true := by
    intro c hc
    rw [bne_iff_ne]
    rintro rfl
    exact hword ' ' hc rfl
  have hbehind : (word ++ (" " ++ argument)).toList = word.toList ++ ' ' :: argument.toList := by
    simp
  have htrim : Text.trimLeft (word.toList ++ ' ' :: argument.toList) =
      word.toList ++ ' ' :: argument.toList := by
    obtain ⟨c, cs, hcs⟩ := List.exists_cons_of_ne_nil fun h => hne (String.toList_eq_nil_iff.1 h)
    rw [hcs, List.cons_append, Text.trimLeft, List.dropWhile_cons_of_neg]
    exact hword c (by rw [hcs]; exact List.mem_cons_self)
  rw [String.append_assoc, String.append_assoc, ofInput_colon_append, hbehind,
    splitWord_of_mem (by rw [htrim]; simp), htrim, List.takeWhile_append_of_pos hspace,
    List.dropWhile_append_of_pos hspace]
  simp

/-! ### Outputs -/

theorem stdout_lines_cons (s : String) (ss : List String) :
    (Output.lines (s :: ss)).stdout = s ++ "\n" ++ (Output.lines ss).stdout := rfl

theorem toList_stdout_lines (ss : List String) :
    (Output.lines ss).stdout.toList = ['\n'].intercalate (ss.map String.toList ++ [[]]) := by
  induction ss with
  | nil => rfl
  | cons s ss ih =>
      rw [stdout_lines_cons, String.toList_append, String.toList_append, ih, List.map_cons,
        List.cons_append, List.intercalate_cons_of_ne_nil (by simp)]
      rfl

/-- Lines without line breaks in them can be told apart again. -/
theorem splitOn_stdout_lines {ss : List String} (h : ∀ s ∈ ss, '\n' ∉ s.toList) :
    (Output.lines ss).stdout.toList.splitOn '\n' = ss.map String.toList ++ [[]] := by
  rw [toList_stdout_lines]
  refine List.splitOn_intercalate '\n' (List.forall_mem_append.2 ⟨?_, by simp⟩) (by simp)
  exact List.forall_mem_map.2 h

section Row

variable {r : Ranked Term} (hcandidate : Text.Flat r.candidate.render)
  (hdiff : Text.Flat r.diff.render)

include hcandidate hdiff

theorem newline_notMem_rankingLine : '\n' ∉ (rankingLine r).toList := by
  have hcost := (flat_repr r.diff.magnitude).newline_notMem
  have hcandidate := hcandidate.newline_notMem
  have hdiff := hdiff.newline_notMem
  simpa [rankingLine, hcandidate, hdiff] using hcost

/-- The fields of a line can be told apart again. -/
theorem splitOn_rankingLine : (rankingLine r).toList.splitOn '\t' =
    [r.diff.magnitude.repr.toList, r.candidate.render.toList, r.diff.render.toList] := by
  have hline : (rankingLine r).toList = ['\t'].intercalate
      [r.diff.magnitude.repr.toList, r.candidate.render.toList, r.diff.render.toList] := by
    simp [rankingLine]
  rw [hline]
  refine List.splitOn_intercalate '\t' ?_ (List.cons_ne_nil _ _)
  exact List.forall_mem_cons.2 ⟨(flat_repr _).tab_notMem, List.forall_mem_cons.2
    ⟨hcandidate.tab_notMem, List.forall_mem_singleton.2 hdiff.tab_notMem⟩⟩

theorem count_tab_rankingLine : (rankingLine r).toList.count '\t' = 2 := by
  have hcost := List.count_eq_zero_of_not_mem (flat_repr r.diff.magnitude).tab_notMem
  have hcandidate := List.count_eq_zero_of_not_mem hcandidate.tab_notMem
  have hdiff := List.count_eq_zero_of_not_mem hdiff.tab_notMem
  simpa [rankingLine, List.count_append, hcandidate, hdiff] using hcost

end Row

/-! ### Commands -/

theorem perform_word (word : String) {command : Command} {argument : String} {output : Output}
    (hne : word ≠ "") (hblank : word.toList.any Text.isBlank = false)
    (hword : ofWord word = command) (hrun : command.run argument = .ok output) :
    perform (":" ++ word ++ " " ++ argument) = ⟨output, .ok ()⟩ := by
  rw [perform_eq, ofInput_word hne hblank, hword]
  simp only [hrun]
  rfl

theorem run_ranking_rendered {old : Term} {candidates : List Term}
    (h : ∀ t ∈ old :: candidates, t.WellNamed) :
    ranking.run ("; ".intercalate ((old :: candidates).map Term.render)) =
      .ok (.lines ((rank old candidates).map rankingLine)) := by
  obtain ⟨xs, hparse, hvalues⟩ := Term.exists_parseAll_rendered h
  obtain ⟨x, xs, rfl, rfl, rfl⟩ := List.map_eq_cons_iff.1 hvalues
  rw [run, hparse]
  rfl

theorem pair_rendered {old new : Term} (hold : old.WellNamed) (hnew : new.WellNamed) :
    pair (old.render ++ "; " ++ new.render) = .ok (old, new) := by
  obtain ⟨terms, hparse, hvalues⟩ := @Term.exists_parseAll_rendered old [new]
    (List.forall_mem_cons.2 ⟨hold, List.forall_mem_singleton.2 hnew⟩)
  obtain ⟨x, rest, rfl, rfl, hrest⟩ := List.map_eq_cons_iff.1 hvalues
  obtain ⟨y, rest, rfl, rfl, hnil⟩ := List.map_eq_cons_iff.1 hrest
  obtain rfl := List.map_eq_nil_iff.1 hnil
  rw [List.map_cons, List.map_singleton, String.intercalate_cons_cons,
    String.intercalate_singleton] at hparse
  rw [pair, hparse]
  rfl

theorem perform_pair_rendered {old new : Term} (hold : old.WellNamed) (hnew : new.WellNamed) :
    perform (old.render ++ "; " ++ new.render) = ⟨.line (Diff.between old new).render, .ok ()⟩ ∧
    perform (":cost " ++ (old.render ++ "; " ++ new.render)) =
      ⟨.line (Diff.between old new).magnitude.repr, .ok ()⟩ ∧
    perform (":debug " ++ (old.render ++ "; " ++ new.render)) =
      ⟨.line (Diff.between old new).outline, .ok ()⟩ := by
  have hpair := pair_rendered hold hnew
  refine ⟨?_, ?_, ?_⟩
  · rw [perform_eq, String.append_assoc, Term.ofInput_rendered hold, ← String.append_assoc, run,
      hpair]
    rfl
  · have hrun : cost.run (old.render ++ "; " ++ new.render) =
        .ok (.line (Diff.between old new).magnitude.repr) := by
      rw [run, hpair]
      rfl
    exact perform_word "cost" (by decide) (by decide) rfl hrun
  · have hrun : outline.run (old.render ++ "; " ++ new.render) =
        .ok (.line (Diff.between old new).outline) := by
      rw [run, hpair]
      rfl
    exact perform_word "debug" (by decide) (by decide) rfl hrun

section Ranking

variable {old : Term} {candidates : List Term} (h : ∀ t ∈ old :: candidates, t.WellNamed)

include h

/-- Of a ranking of well-named terms both the candidates and their diffs are flat. -/
theorem flat_of_mem_rank {r : Ranked Term} (hr : r ∈ rank old candidates) :
    Text.Flat r.candidate.render ∧ Text.Flat r.diff.render := by
  obtain ⟨hold, hcandidates⟩ := List.forall_mem_cons.1 h
  obtain ⟨hc, hdiff⟩ := of_mem_rankBy id old candidates hr
  have hc := hcandidates r.candidate hc
  rw [hdiff]
  exact ⟨Term.flat_render hc, Diff.flat_render (Diff.wellNamed_between hold hc)⟩

theorem splitOn_stdout_ranking :
    (Output.lines ((rank old candidates).map rankingLine)).stdout.toList.splitOn '\n' =
      ((rank old candidates).map rankingLine).map String.toList ++ [[]] := by
  refine splitOn_stdout_lines (List.forall_mem_map.2 fun r hr => ?_)
  obtain ⟨hcandidate, hdiff⟩ := flat_of_mem_rank h hr
  exact newline_notMem_rankingLine hcandidate hdiff

theorem count_tab_ranking :
    ∀ line ∈ (rank old candidates).map rankingLine, line.toList.count '\t' = 2 := by
  refine List.forall_mem_map.2 fun r hr => ?_
  obtain ⟨hcandidate, hdiff⟩ := flat_of_mem_rank h hr
  exact count_tab_rankingLine hcandidate hdiff

theorem splitOn_ranking :
    ((rank old candidates).map rankingLine).map (fun line => line.toList.splitOn '\t') =
      (rank old candidates).map fun r =>
        [r.diff.magnitude.repr.toList, r.candidate.render.toList, r.diff.render.toList] := by
  rw [List.map_map]
  refine List.map_congr_left fun r hr => ?_
  obtain ⟨hcandidate, hdiff⟩ := flat_of_mem_rank h hr
  rw [Function.comp_apply, splitOn_rankingLine hcandidate hdiff]

end Ranking

/-- Terms that are typed in as they are rendered are ranked and compared as they are.  A ranking is
shown on as many lines as there are candidates, which can be told apart, and their fields too. -/
theorem perform_rendered {old : Term} (hold : old.WellNamed) :
    (∀ candidates : List Term, (∀ c ∈ candidates, c.WellNamed) → ∃ lines : List String,
      perform (":rank " ++ "; ".intercalate ((old :: candidates).map Term.render)) =
        ⟨.lines lines, .ok ()⟩ ∧
      lines.length = candidates.length ∧
      lines = (rank old candidates).map (fun r =>
        r.diff.magnitude.repr ++ "\t" ++ r.candidate.render ++ "\t" ++ r.diff.render) ∧
      (Output.lines lines).stdout.toList.splitOn '\n' = lines.map String.toList ++ [[]] ∧
      (∀ line ∈ lines, line.toList.count '\t' = 2) ∧
      lines.map (fun line => line.toList.splitOn '\t') = (rank old candidates).map fun r =>
        [r.diff.magnitude.repr.toList, r.candidate.render.toList, r.diff.render.toList]) ∧
    ∀ new : Term, new.WellNamed →
      perform (old.render ++ "; " ++ new.render) = ⟨.line (Diff.between old new).render, .ok ()⟩ ∧
      '\n' ∉ (Diff.between old new).render.toList ∧
      perform (":cost " ++ (old.render ++ "; " ++ new.render)) =
        ⟨.line (Diff.between old new).magnitude.repr, .ok ()⟩ ∧
      perform (":debug " ++ (old.render ++ "; " ++ new.render)) =
        ⟨.line (Diff.between old new).outline, .ok ()⟩ := by
  refine ⟨fun candidates hcandidates => ?_, fun new hnew => ?_⟩
  · have h : ∀ t ∈ old :: candidates, t.WellNamed := List.forall_mem_cons.2 ⟨hold, hcandidates⟩
    have hlength : ((rank old candidates).map rankingLine).length = candidates.length := by
      rw [List.length_map, rank, length_rankBy]
    exact ⟨(rank old candidates).map rankingLine,
      perform_word "rank" (by decide) (by decide) rfl (run_ranking_rendered h), hlength, rfl,
      splitOn_stdout_ranking h, count_tab_ranking h, splitOn_ranking h⟩
  · obtain ⟨hmarkup, hcost, hdebug⟩ := perform_pair_rendered hold hnew
    have hflat := Diff.flat_render (Diff.wellNamed_between hold hnew)
    exact ⟨hmarkup, hflat.newline_notMem, hcost, hdebug⟩

/-- A text with a semicolon, a tab and marks in it, which is escaped where it has to be. -/
theorem perform_rendered_quoted :
    Term.WellNamed (.node (.literal (.text "; \t\x7b+"))) ∧ Term.WellNamed (.node (.name "x")) ∧
    perform "\"; \\t\x7b+\"; x" = ⟨.line "\x7b-\"; \\t\x7b+\"-\x7d\x7b+x+\x7d", .ok ()⟩ ∧
    perform ":cost \"; \\t\x7b+\"; x" = ⟨.line "1", .ok ()⟩ ∧
    ∃ lines, perform ":rank \"; \\t\x7b+\"; x" = ⟨.lines lines, .ok ()⟩ ∧ lines.length = 1 ∧
      ∀ line ∈ lines, line.toList.count '\t' = 2 := by
  have hold : Term.WellNamed (.node (.literal (.text "; \t\x7b+"))) := .node nofun nofun
  have hnew : Term.WellNamed (.node (.name "x")) :=
    .node (List.forall_mem_singleton.2 ⟨⟨'x', [], rfl, rfl, nofun⟩, by decide⟩) nofun
  obtain ⟨hranked, hcompared⟩ := perform_rendered hold
  obtain ⟨hmarkup, -, hcost, -⟩ := hcompared _ hnew
  obtain ⟨lines, hperform, hlength, -, -, htabs, -⟩ :=
    hranked [.node (.name "x")] (List.forall_mem_singleton.2 hnew)
  exact ⟨hold, hnew, hmarkup, hcost, lines, hperform, hlength, htabs⟩

end Command

end Redline
