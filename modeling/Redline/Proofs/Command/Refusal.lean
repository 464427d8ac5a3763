import Redline.Command.Transcript
import Redline.Proofs.Command.Dispatch
import Redline.Proofs.Command.Placement
import Redline.Proofs.Term.Breaking
import Redline.Proofs.Token.Breaking

/-! # Refusals

A command reads all of its argument before it writes, so its transcript is that of a command that
either answers or refuses (`execute_eq`).  What it refuses it refuses for one problem, which is
placed in the argument (`Refuses.placed`), and where the end of the argument has been found, behind
it (`Refuses.endsAt`).  Main statement: `refusal_of_perform`. -/

namespace Redline

open Parsing

/-- If the end of a text of `n` characters has been found, then behind them. -/
def Problem.EndsAt {σ : Type} (n : Nat) (p : Problem σ) : Prop :=
  p.reason = .unexpected → p.found = none → p.span.start = n

/-! ### Where the end is found -/

open Token.Lexer in
theorem Token.endsAt_of_scan {source : String} {problem : Problem Char}
    (h : scan source = .error problem) : problem.EndsAt source.toList.length := by
  intro hreason hfound
  obtain ⟨f, rfl, hrefuses⟩ := refuses_of_scan h
  generalize source.toList = cs at hrefuses ⊢
  cases hrefuses with
  | @breaks us rest _ hat hstarts hbreaks =>
      rw [Nat.zero_add] at hat
      have hoff := Refuses.breaksOff hat hstarts hbreaks
      have hge := List.getElem?_eq_none_iff.1 (hoff.found.symm.trans hfound)
      rw [hoff.span]
      exact Nat.le_antisymm hoff.le hge
  | overflows _ hover => cases hreason.symm.trans hover.reason

theorem Problem.EndsAt.map {σ τ : Type} {n : Nat} {p : Problem σ} (h : p.EndsAt n) (f : σ → τ) :
    (p.map f).EndsAt n := by
  intro hreason hfound
  refine h ?_ (Option.map_eq_none_iff.1 hfound)
  have hmap : p.reason.map f = .unexpected := hreason
  cases hr : p.reason with
  | unexpected => rfl
  | unclosed opened delimiter => rw [hr] at hmap; cases hmap
  | custom message => rw [hr] at hmap; cases hmap

theorem Term.PointsAt.endsAt {source : String} {tokens : List (Spanned Token)}
    {problem : Problem String} {k : Nat} (h : PointsAt source tokens problem k) :
    problem.EndsAt source.toList.length := by
  intro _ hfound
  have hnone : tokens[k]? = none := Option.map_eq_none_iff.1 (h.found.symm.trans hfound)
  rw [h.span, hnone]
  rfl

namespace Command

theorem Refuses.endsAt {argument : String} {problem : Problem String}
    (h : Refuses argument problem) : problem.EndsAt argument.toList.length := by
  cases h with
  | scan h => exact (Token.endsAt_of_scan h).map _
  | parse hscan h =>
      obtain ⟨k, hk⟩ := Term.exists_breaksAt Term.Grammar.locates_term hscan h
      exact hk.pointsAt.endsAt
  | parseAll hscan h =>
      obtain ⟨k, hk⟩ := Term.exists_breaksAt Term.Grammar.locates_terms hscan h
      exact hk.pointsAt.endsAt
  | whole message => rintro ⟨⟩

/-! ### The order of effects -/

/-- The transcript of a command that writes only when it has not been refused. -/
def transcript (argument : String) : Except (Problem String) Output → Transcript Refusal Unit
  | .ok output => .write output
  | .error problem => .attempt (.error ⟨argument, [problem]⟩)

variable {argument : String}

/-- What is done with what has been read is done afterwards. -/
theorem reading_bind {α : Type} {x : Except (Problem String) α}
    {f : α → Transcript Refusal Unit} {g : α → Except (Problem String) Output}
    (h : ∀ a, f a = transcript argument (g a)) :
    reading argument x >>= f = transcript argument (x >>= g) := by
  cases x with
  | error problem => rfl
  | ok a =>
      change Transcript.mk (.empty ++ (f a).written) (f a).outcome = transcript argument (g a)
      rw [Output.empty_append, h]

theorem writeLines_eq {ε : Type} (ss : List String) :
    (Transcript.writeLines ss : Transcript ε Unit) = .write (.lines ss) := by
  induction ss with
  | nil => rfl
  | cons s ss ih =>
      change Transcript.write (.line s) >>= (fun _ => Transcript.writeLines ss) = _
      rw [ih]
      rfl

/-- A command is carried out as it is answered. -/
theorem execute_eq (command : Command) (argument : String) :
    command.execute argument = transcript argument (command.run argument) := by
  cases command with
  | tokens => exact reading_bind fun _ => rfl
  | term => exact reading_bind fun _ => writeLines_eq _
  | markup => exact reading_bind fun _ => rfl
  | outline => exact reading_bind fun _ => rfl
  | cost => exact reading_bind fun _ => rfl
  | ranking =>
      refine reading_bind fun terms => ?_
      cases terms with
      | nil => rfl
      | cons old candidates => exact writeLines_eq _
  | help => rfl
  | unknown word => rfl

/-! ### Refused inputs -/

theorem perform_eq (input : String) :
    perform input = transcript (ofInput input).2 ((ofInput input).1.run (ofInput input).2) :=
  execute_eq _ _

/-- A command that is refused has written nothing.  Its argument stands at the end of the input, and
there is one problem with it, which lies in the argument or behind it, and behind it if the end of
the argument has been found. -/
theorem refusal_of_perform {input argument : String} {problems : List (Problem String)}
    (h : (perform input).outcome = .error ⟨argument, problems⟩) :
    (perform input).written = .empty ∧ argument.toList <:+ input.toList ∧
      ∃ problem, problems = [problem] ∧ answer input = .error ⟨argument, problem⟩ ∧
        problem.span.Fits argument.toList.length ∧ problem.EndsAt argument.toList.length := by
  rw [perform_eq] at h ⊢
  cases hrun : (ofInput input).1.run (ofInput input).2 with
  | ok output =>
      rw [hrun] at h
      cases h
  | error problem =>
      rw [hrun] at h
      cases h
      have hrefuses := refuses_of_run hrun
      refine ⟨rfl, suffix_ofInput input, problem, rfl, ?_, hrefuses.placed.fits, hrefuses.endsAt⟩
      unfold answer
      simp only [hrun]
      rfl

/-- A call that is not closed is refused at its end. -/
theorem refusal_open_call : ∃ problem,
    (perform ":p f(").outcome = .error ⟨"f(", [problem]⟩ ∧ (perform ":p f(").written = .empty ∧
      "f(".toList <:+ ":p f(".toList ∧ answer ":p f(" = .error ⟨"f(", problem⟩ ∧
        problem.span.Fits 2 ∧ problem.span.start = 2 := by
  obtain ⟨problem, h, hreason, hfound⟩ : ∃ problem,
      (perform ":p f(").outcome = .error ⟨"f(", [problem]⟩ ∧ problem.reason = .unexpected ∧
        problem.found = none := ⟨_, rfl, rfl, rfl⟩
  obtain ⟨hwritten, hsuffix, _, hproblems, hanswer, hfits, hends⟩ := refusal_of_perform h
  obtain rfl := (List.cons.inj hproblems).1
  exact ⟨problem, h, hwritten, hsuffix, hanswer, hfits, hends hreason hfound⟩

end Command

end Redline
