import Redline.Proofs.Parsing.Rows
import Redline.Term.Grammar

/-! # Derivations

    term  ::= `lambda` [apply {`,` apply}] `.` term  |  name `=` term  |  apply
    apply ::= atom  |  apply `(` terms `)`
    atom  ::= literal  |  `_`  |  name  |  `[` terms `]` `{` term `}`  |  `(` term `)`
    terms ::= [term {`,` term} [`,`]]

Here the grammar of terms is a relation between tokens and trees, without any order among the
alternatives: `IsTerm ts t` says that `ts` has a derivation with the tree `t`, and `IsSource ts xs`
that `ts` is a list of terms with semicolons between them.

A property of all derivations is shown by relations that the rules keep (`Closed.isTerm`).  What the
recognition of terms needs to know of derivations are their ends: which tokens a term may
start with (`IsTerm.head`), and that a name at the start of an application is followed by an
argument list, if by anything (`IsApply.afterName`). -/

namespace Redline

namespace Token

/-- The tokens between an opening and a closing symbol. -/
def enclosed (opening closing : Symbol) (ts : List Token) : List Token :=
  symbol opening :: (ts ++ [symbol closing])

/-- Whether a term may start with the token. -/
def startsTerm : Token → Bool
  | symbol .leftParen => true
  | symbol .leftBracket => true
  | symbol _ => false
  | underscore => true
  | lambda => true
  | literal _ => true
  | name _ => true

end Token

namespace Term.Grammar

open Parsing

mutual

inductive IsTerm : List Token → Term → Prop
  | lambda {ps bs : List Token} {parameters : List Term} {body : Term} :
      SepBy IsApply (.symbol .comma) ps parameters → IsTerm bs body →
        IsTerm (.lambda :: (ps ++ .symbol .dot :: bs)) (.node (.lambda parameters body))
  | assign {x : String} {vs : List Token} {value : Term} :
      IsTerm vs value → IsTerm (.name x :: .symbol .equal :: vs) (.node (.assign x value))
  | apply {ts : List Token} {t : Term} : IsApply ts t → IsTerm ts t

inductive IsApply : List Token → Term → Prop
  | atom {ts : List Token} {t : Term} : IsAtom ts t → IsApply ts t
  | call {fs xs : List Token} {callee : Term} {arguments : List Term} :
      IsApply fs callee → SepEndBy IsTerm (.symbol .comma) xs arguments →
        IsApply (fs ++ Token.enclosed .leftParen .rightParen xs) (.node (.apply callee arguments))

inductive IsAtom : List Token → Term → Prop
  | literal (v : Value) : IsAtom [.literal v] (.node (.literal v))
  | underscore : IsAtom [.underscore] .absent
  | name (x : String) : IsAtom [.name x] (.node (.name x))
  | group {gs vs : List Token} {tag : List Term} {value : Term} :
      SepEndBy IsTerm (.symbol .comma) gs tag → IsTerm vs value →
        IsAtom (Token.enclosed .leftBracket .rightBracket gs ++
          Token.enclosed .leftBrace .rightBrace vs) (.node (.group tag value))
  | parens {ts : List Token} {t : Term} :
      IsTerm ts t → IsAtom (Token.enclosed .leftParen .rightParen ts) t

end

/-- Any number of terms with semicolons between neighbours, of which one more may stand at the
end. -/
def IsSource : List Token → List Term → Prop := SepEndBy IsTerm (.symbol .semicolon)

/-! ### Induction over derivations -/

/-- Relations that the rules of the grammar keep. -/
structure Closed (T P A : List Token → Term → Prop) : Prop where
  lambda : ∀ {ps bs : List Token} {parameters : List Term} {body : Term},
    SepBy P (.symbol .comma) ps parameters → T bs body →
      T (.lambda :: (ps ++ .symbol .dot :: bs)) (.node (.lambda parameters body))
  assign : ∀ {x : String} {vs : List Token} {value : Term},
    T vs value → T (.name x :: .symbol .equal :: vs) (.node (.assign x value))
  apply : ∀ {ts : List Token} {t : Term}, P ts t → T ts t
  atom : ∀ {ts : List Token} {t : Term}, A ts t → P ts t
  call : ∀ {fs xs : List Token} {callee : Term} {arguments : List Term},
    P fs callee → SepEndBy T (.symbol .comma) xs arguments →
      P (fs ++ Token.enclosed .leftParen .rightParen xs) (.node (.apply callee arguments))
  literal : ∀ v : Value, A [.literal v] (.node (.literal v))
  underscore : A [.underscore] .absent
  name : ∀ x : String, A [.name x] (.node (.name x))
  group : ∀ {gs vs : List Token} {tag : List Term} {value : Term},
    SepEndBy T (.symbol .comma) gs tag → T vs value →
      A (Token.enclosed .leftBracket .rightBracket gs ++
        Token.enclosed .leftBrace .rightBrace vs) (.node (.group tag value))
  parens : ∀ {ts : List Token} {t : Term},
    T ts t → A (Token.enclosed .leftParen .rightParen ts) t

namespace Closed

variable {T P A : List Token → Term → Prop} (h : Closed T P A)

include h

section Step

variable {n : Nat} (hterm : ∀ {ts : List Token} {t : Term}, ts.length < n → IsTerm ts t → T ts t)

include hterm

theorem isAtom {ts : List Token} {t : Term} (ht : IsAtom ts t) (hn : ts.length ≤ n) : A ts t := by
  cases ht with
  | literal v => exact h.literal v
  | underscore => exact h.underscore
  | name x => exact h.name x
  | group hgs hvs =>
      simp only [Token.enclosed, List.length_append, List.length_cons] at hn
      exact h.group (hgs.imp fun _ _ hle => hterm (by omega)) (hterm (by omega) hvs)
  | parens ht =>
      simp only [Token.enclosed, List.length_append, List.length_cons] at hn
      exact h.parens (hterm (by omega) ht)

theorem isApply : ∀ {ts : List Token} {t : Term}, IsApply ts t → ts.length ≤ n → P ts t
  | _, _, .atom ht, hn => h.atom (h.isAtom hterm ht hn)
  | _, _, .call hf hxs, hn => by
      simp only [Token.enclosed, List.length_append, List.length_cons] at hn
      exact h.call (isApply hf (by omega)) (hxs.imp fun _ _ hle => hterm (by omega))

end Step

/-- The derivations are the least relations that the rules keep. -/
theorem isTerm {ts : List Token} {t : Term} (ht : IsTerm ts t) : T ts t := by
  induction hn : ts.length using Nat.strongRecOn generalizing ts t with
  | _ n ih =>
      have hterm : ∀ {us : List Token} {u : Term}, us.length < n → IsTerm us u → T us u :=
        fun hlt hu => ih _ hlt hu rfl
      cases ht with
      | @lambda ps bs _ _ hps hbs =>
          simp only [List.length_append, List.length_cons] at hn
          exact h.lambda (hps.imp fun _ _ hle ha => h.isApply hterm ha (by omega))
            (hterm (by omega) hbs)
      | assign hvs =>
          simp only [List.length_cons] at hn
          exact h.assign (hterm (by omega) hvs)
      | apply ha => exact h.apply (h.isApply hterm ha (by omega))

end Closed

/-! ### How derivations start -/

theorem IsAtom.head {ts : List Token} {t : Term} (h : IsAtom ts t) :
    ∃ v vs, ts = v :: vs ∧ v.startsTerm = true ∧ v ≠ .lambda := by
  cases h <;> exact ⟨_, _, rfl, rfl, nofun⟩

theorem IsApply.head : ∀ {ts : List Token} {t : Term}, IsApply ts t →
    ∃ v vs, ts = v :: vs ∧ v.startsTerm = true ∧ v ≠ .lambda
  | _, _, .atom h => h.head
  | _, _, .call h _ => by
      obtain ⟨v, vs, rfl, hv⟩ := h.head
      exact ⟨v, _, rfl, hv⟩

theorem IsTerm.head {ts : List Token} {t : Term} (h : IsTerm ts t) :
    ∃ v vs, ts = v :: vs ∧ v.startsTerm = true := by
  cases h with
  | lambda => exact ⟨_, _, rfl, rfl⟩
  | assign => exact ⟨_, _, rfl, rfl⟩
  | apply h =>
      obtain ⟨v, vs, hts, hv, -⟩ := h.head
      exact ⟨v, vs, hts, hv⟩

/-- An application that starts with a name is the name alone or goes on with arguments. -/
theorem IsApply.afterName {x : String} : ∀ {ts : List Token} {t : Term}, IsApply ts t →
    ∀ {us : List Token}, ts = .name x :: us → us = [] ∨ us.head? = some (.symbol .leftParen)
  | _, _, .atom h, us, hts => by
      cases h <;> cases hts
      exact .inl rfl
  | _, _, .call h _, us, hts => by
      obtain ⟨v, vs, rfl, -⟩ := h.head
      obtain ⟨rfl, rfl⟩ := List.cons.inj hts
      rcases h.afterName rfl with rfl | hvs
      · exact .inr rfl
      · obtain ⟨ws, rfl⟩ := List.head?_eq_some_iff.1 hvs
        exact .inr rfl

end Term.Grammar

end Redline
