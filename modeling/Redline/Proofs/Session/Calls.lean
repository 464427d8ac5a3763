import Redline.Proofs.Session.Inputs
import Redline.Session.Echo

/-! # The calls of a session

A session calls its host with the inputs that its lines make up, each once and in order, up to and
including the first from which the host does not go on (`calls`).  The calls settle the session:
what it has written are their outputs, and it ends as the last of them says or, if the host has
always gone on, with the farewell (`ofLines_eq`).  That there are no other calls is seen by a host
that keeps a record of them (`stateAfter_recording`).  Where no continuation is open and the host
has gone on, a session can be cut in two (`ofLines_append`).  Main statement: `run_calls`. -/

namespace Redline

/-! ### Lines in two parts -/

/-- What waits behind the lines. -/
def Pending.after (p : Pending) (lines : List String) : Pending :=
  lines.foldl (fun p line => (p.push line).2) p

theorem Pending.inputs_append (A B : List String) : ∀ p : Pending,
    p.inputs (A ++ B) = p.inputs A ++ (p.after A).inputs B := by
  induction A with
  | nil => intro p; rfl
  | cons line A ih =>
      intro p
      rw [List.cons_append, Session.inputs_cons, Session.inputs_cons, ih, List.append_assoc]
      rfl

/-! ### Hosts -/

/-- How a session ends at a verdict, if it does. -/
def Verdict.ending {ε : Type} : Verdict ε → Option (Session.Ending ε)
  | goOn => none
  | failed error => some (.failed error)
  | crashed message => some (.crashed message)

theorem Verdict.ending_eq_none_iff {ε : Type} {v : Verdict ε} : v.ending = none ↔ v = .goOn := by
  cases v <;> simp [ending]

/-- The host, with a record of the inputs that it has been called with. -/
def Host.recording {σ ε : Type} (host : Host σ ε) : Host (σ × List String) ε := fun s input =>
  let e := host s.1 input
  ⟨(e.state, s.2 ++ [input]), e.output, e.verdict⟩

namespace Session

variable {σ ε : Type}

/-! ### Calls -/

/-- What a host makes of inputs in turn, up to the first from which it does not go on. -/
def calls (host : Host σ ε) (state : σ) : List String → List (Evaluation σ ε)
  | [] => []
  | input :: inputs =>
      let e := host state input
      match e.verdict.ending with
      | none => e :: calls host e.state inputs
      | some _ => [e]

/-- The state that calls leave the host in. -/
def stateAfter (state : σ) (cs : List (Evaluation σ ε)) : σ := cs.foldl (fun _ c => c.state) state

/-- All that has been written in calls. -/
def outputs (cs : List (Evaluation σ ε)) : Output := cs.foldr (fun c o => c.output ++ o) .empty

/-- The end that calls bring to a session, if they do. -/
def endingOf (cs : List (Evaluation σ ε)) : Option (Ending ε) :=
  cs.findSome? fun c => c.verdict.ending

section Calls

variable {host : Host σ ε}

theorem calls_of_goOn {state : σ} {input : String} (h : (host state input).verdict = .goOn)
    (inputs : List String) :
    calls host state (input :: inputs) =
      host state input :: calls host (host state input).state inputs := by
  rw [calls, h]
  rfl

theorem calls_of_ending {state : σ} {input : String} {e : Ending ε}
    (h : (host state input).verdict.ending = some e) (inputs : List String) :
    calls host state (input :: inputs) = [host state input] := by
  rw [calls, h]

/-- Either the host goes on from all inputs, or the calls stop at the one from which it does
not. -/
theorem calls_cases (host : Host σ ε) (state : σ) (inputs : List String) :
    ((calls host state inputs).length = inputs.length ∧
      ∀ c ∈ calls host state inputs, c.verdict = .goOn) ∨
    ∃ before last, calls host state inputs = before ++ [last] ∧
      (∀ c ∈ before, c.verdict = .goOn) ∧ last.verdict ≠ .goOn := by
  induction inputs generalizing state with
  | nil => exact .inl ⟨rfl, nofun⟩
  | cons input inputs ih =>
      cases hverdict : (host state input).verdict.ending with
      | some e =>
          refine .inr ⟨[], host state input, calls_of_ending hverdict inputs, nofun, ?_⟩
          intro hgoOn
          rw [hgoOn] at hverdict
          cases hverdict
      | none =>
          have hgoOn := Verdict.ending_eq_none_iff.1 hverdict
          rw [calls_of_goOn hgoOn]
          rcases ih (host state input).state with ⟨hlength, hall⟩ | ⟨before, last, hcs, hall, hlast⟩
          · refine .inl ⟨?_, List.forall_mem_cons.2 ⟨hgoOn, hall⟩⟩
            rw [List.length_cons, hlength, List.length_cons]
          · exact .inr ⟨host state input :: before, last, by rw [hcs, List.cons_append],
              List.forall_mem_cons.2 ⟨hgoOn, hall⟩, hlast⟩

theorem endingOf_eq_none {cs : List (Evaluation σ ε)} (h : ∀ c ∈ cs, c.verdict = .goOn) :
    endingOf cs = none :=
  List.findSome?_eq_none_iff.2 fun c hc => Verdict.ending_eq_none_iff.2 (h c hc)

theorem endingOf_concat {before : List (Evaluation σ ε)} (h : ∀ c ∈ before, c.verdict = .goOn)
    (last : Evaluation σ ε) : endingOf (before ++ [last]) = last.verdict.ending := by
  have hbefore : before.findSome? (fun c => c.verdict.ending) = none := endingOf_eq_none h
  rw [endingOf, List.findSome?_append, hbefore, Option.none_or, List.findSome?_singleton]

/-- Behind inputs from which the host goes on, it goes on with further ones. -/
theorem calls_append {A : List String} (B : List String) : ∀ {state : σ},
    (∀ c ∈ calls host state A, c.verdict = .goOn) →
      calls host state (A ++ B) =
        calls host state A ++ calls host (stateAfter state (calls host state A)) B := by
  induction A with
  | nil => intro state _; rfl
  | cons input A ih =>
      intro state h
      cases hverdict : (host state input).verdict.ending with
      | some e =>
          rw [calls_of_ending hverdict] at h
          rw [h _ List.mem_cons_self] at hverdict
          cases hverdict
      | none =>
          have hgoOn := Verdict.ending_eq_none_iff.1 hverdict
          rw [calls_of_goOn hgoOn] at h ⊢
          rw [List.cons_append, calls_of_goOn hgoOn, ih (List.forall_mem_cons.1 h).2]
          rfl

end Calls

/-! ### A record of the calls -/

theorem stateAfter_recording (host : Host σ ε) (inputs : List String) : ∀ (state : σ)
    (record : List String),
    stateAfter (state, record) (calls (Host.recording host) (state, record) inputs) =
      (stateAfter state (calls host state inputs),
        record ++ inputs.take (calls host state inputs).length) := by
  induction inputs with
  | nil => intro state record; simp [calls, stateAfter]
  | cons input inputs ih =>
      intro state record
      cases hverdict : (host state input).verdict.ending with
      | some e =>
          have hrecording : (Host.recording host (state, record) input).verdict.ending = some e :=
            hverdict
          rw [calls_of_ending hverdict, calls_of_ending hrecording]
          rfl
      | none =>
          have hgoOn := Verdict.ending_eq_none_iff.1 hverdict
          have hrecording : (Host.recording host (state, record) input).verdict = .goOn := hgoOn
          rw [calls_of_goOn hgoOn, calls_of_goOn hrecording, List.length_cons, List.take_succ_cons]
          have hrest := ih (host state input).state (record ++ [input])
          rw [List.append_assoc, List.singleton_append] at hrest
          exact hrest

/-! ### Sessions -/

section Sessions

variable {host : Host σ ε}

theorem submit_of_not_blank {s : State σ ε} {input : String} (h : isBlankInput input = false) :
    submit host s input =
      { s with
        host := (host s.host input).state
        output := s.output ++ (host s.host input).output
        ending := (host s.host input).verdict.ending } := by
  unfold submit
  rw [if_neg (by simp [h])]
  simp only
  cases (host s.host input).verdict <;> rfl

/-- Handing over inputs is calling the host. -/
theorem submitAll_eq_calls : ∀ {inputs : List String} {s : State σ ε}, s.ending = none →
    (∀ input ∈ inputs, isBlankInput input = false) →
      submitAll host s inputs =
        { s with
          host := stateAfter s.host (calls host s.host inputs)
          output := s.output ++ outputs (calls host s.host inputs)
          ending := endingOf (calls host s.host inputs) }
  | [], s, hs, _ => by
      obtain ⟨state, pending, output, ending⟩ := s
      obtain rfl : ending = none := hs
      change _ = State.mk state pending (output ++ .empty) none
      rw [Output.append_empty]
      rfl
  | input :: inputs, s, hs, h => by
      obtain ⟨hinput, hinputs⟩ := List.forall_mem_cons.1 h
      rw [submitAll, hs]
      simp only
      cases hverdict : (host s.host input).verdict.ending with
      | some e =>
          have hending : (submit host s input).ending = some e := by
            rw [submit_of_not_blank hinput]
            exact hverdict
          rw [submitAll_of_ending hending, submit_of_not_blank hinput, calls_of_ending hverdict]
          simp [stateAfter, outputs, endingOf, hverdict, Output.append_empty]
      | none =>
          have hending : (submit host s input).ending = none := by
            rw [submit_of_not_blank hinput]
            exact hverdict
          rw [submitAll_eq_calls hending hinputs, submit_of_not_blank hinput,
            calls_of_goOn (Verdict.ending_eq_none_iff.1 hverdict)]
          simp [stateAfter, outputs, endingOf, hverdict, Output.append_assoc]

theorem isBlankInput_of_mem_inputs {p : Pending} {lines : List String} {input : String}
    (h : input ∈ p.inputs lines) : isBlankInput input = false := by
  simpa using (List.mem_filter.1 h).2

/-- The session of a host, in a state, over lines that can be had. -/
def ofLines (host : Host σ ε) (state : σ) (lines : List String) : State σ ε :=
  run host state (lines.map .ok)

/-- The calls of a session: with the inputs that the lines make up. -/
def callsOfLines (host : Host σ ε) (state : σ) (lines : List String) : List (Evaluation σ ε) :=
  calls host state (Pending.empty.inputs lines)

theorem settled_readAll_start (state : σ) (lines : List String) :
    (readAll host (start state) (lines.map .ok)).settled =
      ⟨stateAfter state (callsOfLines host state lines), .empty,
        outputs (callsOfLines host state lines), endingOf (callsOfLines host state lines)⟩ := by
  have hblank : ∀ input ∈ Pending.empty.inputs lines, isBlankInput input = false :=
    fun _ => isBlankInput_of_mem_inputs
  have hstart : (start state : State σ ε).ending = none := rfl
  have hread : (readAll host (start state) (lines.map .ok)).settled =
      submitAll host (start state).settled (Pending.empty.inputs lines) :=
    settled_readAll lines hstart
  refine hread.trans ((submitAll_eq_calls hstart hblank).trans ?_)
  change State.mk _ _ (Output.empty ++ _) _ = _
  rw [Output.empty_append]
  rfl

theorem settled_finish (s : State σ ε) : (finish s).settled = finish s.settled := by
  unfold finish
  rw [ending_settled]
  cases s.ending <;> rfl

theorem settled_ofLines (host : Host σ ε) (state : σ) (lines : List String) :
    (ofLines host state lines).settled =
      finish ⟨stateAfter state (callsOfLines host state lines), .empty,
        outputs (callsOfLines host state lines), endingOf (callsOfLines host state lines)⟩ := by
  rw [← settled_readAll_start, ← settled_finish]
  rfl

/-- A session is settled by its calls. -/
theorem ofLines_eq (host : Host σ ε) (state : σ) (lines : List String) :
    (ofLines host state lines).host = stateAfter state (callsOfLines host state lines) ∧
    (ofLines host state lines).output =
      outputs (callsOfLines host state lines) ++
        (if (endingOf (callsOfLines host state lines)).isNone then .line "Bye!" else .empty) ∧
    (ofLines host state lines).ending =
      some ((endingOf (callsOfLines host state lines)).getD .farewell) := by
  have h := settled_ofLines host state lines
  change (ofLines host state lines).settled.host = _ ∧
    (ofLines host state lines).settled.output = _ ∧ (ofLines host state lines).settled.ending = _
  rw [h, finish]
  cases endingOf (callsOfLines host state lines) with
  | none => exact ⟨rfl, rfl, rfl⟩
  | some e => exact ⟨rfl, (Output.append_empty _).symm, rfl⟩

theorem outputs_append (cs ds : List (Evaluation σ ε)) :
    outputs (cs ++ ds) = outputs cs ++ outputs ds := by
  induction cs with
  | nil => exact (Output.empty_append _).symm
  | cons c cs ih =>
      change c.output ++ outputs (cs ++ ds) = c.output ++ outputs cs ++ outputs ds
      rw [ih, Output.append_assoc]

theorem endingOf_append {cs : List (Evaluation σ ε)} (h : ∀ c ∈ cs, c.verdict = .goOn)
    (ds : List (Evaluation σ ε)) : endingOf (cs ++ ds) = endingOf ds := by
  have hcs : cs.findSome? (fun c => c.verdict.ending) = none := endingOf_eq_none h
  rw [endingOf, List.findSome?_append, hcs, Option.none_or]
  rfl

theorem callsOfLines_append {state : σ} {A : List String} (B : List String)
    (hA : Pending.empty.after A = .empty) (h : ∀ c ∈ callsOfLines host state A, c.verdict = .goOn) :
    callsOfLines host state (A ++ B) =
      callsOfLines host state A ++
        callsOfLines host (stateAfter state (callsOfLines host state A)) B := by
  have hcalls := calls_append (Pending.empty.inputs B) h
  rw [callsOfLines, Pending.inputs_append, hA, hcalls]
  rfl

/-- Behind lines that leave nothing open and from which the host goes on, a session goes on as one
of its own. -/
theorem ofLines_append {state : σ} {A : List String} (B : List String)
    (hA : Pending.empty.after A = .empty) (h : ∀ c ∈ callsOfLines host state A, c.verdict = .goOn) :
    let state' := stateAfter state (callsOfLines host state A)
    (ofLines host state (A ++ B)).host = (ofLines host state' B).host ∧
      (ofLines host state (A ++ B)).output =
        outputs (callsOfLines host state A) ++ (ofLines host state' B).output ∧
      (ofLines host state (A ++ B)).ending = (ofLines host state' B).ending := by
  intro state'
  obtain ⟨hhost, houtput, hending⟩ := ofLines_eq host state (A ++ B)
  obtain ⟨hhostB, houtputB, hendingB⟩ := ofLines_eq host state' B
  rw [callsOfLines_append B hA h] at hhost houtput hending
  rw [endingOf_append h] at houtput hending
  refine ⟨?_, ?_, hending.trans hendingB.symm⟩
  · rw [hhost, hhostB, stateAfter, List.foldl_append]
    rfl
  · rw [houtput, houtputB, outputs_append, Output.append_assoc]

end Sessions

/-- A session calls its host with the inputs that its lines make up, in order, up to and including
the first from which the host does not go on.  If there is none it says farewell, once and last;
otherwise it ends as that call says and writes nothing else.  Behind lines that leave nothing open
and from which the host goes on, it goes on as a session over the other lines alone. -/
theorem run_calls (host : Host σ ε) :
    (∀ (state : σ) (lines : List String),
      (ofLines (Host.recording host) (state, []) lines).host =
        (stateAfter state (callsOfLines host state lines),
          (Pending.empty.inputs lines).take (callsOfLines host state lines).length) ∧
      (ofLines host state lines).host = stateAfter state (callsOfLines host state lines) ∧
      (((callsOfLines host state lines).length = (Pending.empty.inputs lines).length ∧
          (∀ c ∈ callsOfLines host state lines, c.verdict = .goOn) ∧
          (ofLines host state lines).output =
            outputs (callsOfLines host state lines) ++ .line "Bye!" ∧
          (ofLines host state lines).ending = some .farewell) ∨
        ∃ before last, callsOfLines host state lines = before ++ [last] ∧
          (∀ c ∈ before, c.verdict = .goOn) ∧ last.verdict ≠ .goOn ∧
          (ofLines host state lines).output = outputs (callsOfLines host state lines) ∧
          (ofLines host state lines).ending = last.verdict.ending)) ∧
    ∀ (state : σ) (A B : List String), Pending.empty.after A = .empty →
      (∀ c ∈ callsOfLines host state A, c.verdict = .goOn) →
        let state' := stateAfter state (callsOfLines host state A)
        callsOfLines host state (A ++ B) = callsOfLines host state A ++ callsOfLines host state' B ∧
        (ofLines host state (A ++ B)).host = (ofLines host state' B).host ∧
        (ofLines host state (A ++ B)).output =
          outputs (callsOfLines host state A) ++ (ofLines host state' B).output ∧
        (ofLines host state (A ++ B)).ending = (ofLines host state' B).ending := by
  refine ⟨fun state lines => ⟨?_, ?_⟩, fun state A B hA h => ?_⟩
  · rw [(ofLines_eq _ _ lines).1]
    have hrecord := stateAfter_recording host (Pending.empty.inputs lines) state []
    rwa [List.nil_append] at hrecord
  · obtain ⟨hhost, houtput, hending⟩ := ofLines_eq host state lines
    refine ⟨hhost, ?_⟩
    rcases calls_cases host state (Pending.empty.inputs lines) with
      ⟨hlength, hall⟩ | ⟨before, last, hcalls, hall, hlast⟩
    · have hall' : ∀ c ∈ callsOfLines host state lines, c.verdict = .goOn := hall
      rw [endingOf_eq_none hall'] at houtput hending
      exact .inl ⟨hlength, hall, houtput, hending⟩
    · have hcalls' : callsOfLines host state lines = before ++ [last] := hcalls
      refine .inr ⟨before, last, hcalls', hall, hlast, ?_⟩
      rw [hcalls', endingOf_concat hall] at houtput hending
      obtain ⟨e, he⟩ := Option.ne_none_iff_exists'.1 (mt Verdict.ending_eq_none_iff.1 hlast)
      rw [he] at houtput hending ⊢
      rw [houtput, hcalls']
      exact ⟨Output.append_empty _, hending⟩
  · exact ⟨callsOfLines_append B hA h, ofLines_append B hA h⟩

/-- Two lines that are one input and a blank one, and behind them a session that fails. -/
theorem run_calls_echo :
    Pending.empty.after ["a\\", "b", "  "] = .empty ∧
    (∀ c ∈ callsOfLines Echo.host () ["a\\", "b", "  "], c.verdict = .goOn) ∧
    (ofLines Echo.host () (["a\\", "b", "  "] ++ ["fail", "c"])).output =
      outputs (callsOfLines Echo.host () ["a\\", "b", "  "]) ++
        (ofLines Echo.host () ["fail", "c"]).output ∧
    (ofLines Echo.host () (["a\\", "b", "  "] ++ ["fail", "c"])).ending =
      (ofLines Echo.host () ["fail", "c"]).ending := by
  have hA : Pending.empty.after ["a\\", "b", "  "] = .empty := by decide
  have hcalls : callsOfLines Echo.host () ["a\\", "b", "  "] = [Echo.host () "a\nb"] := by rfl
  have hgoOn : ∀ c ∈ callsOfLines Echo.host () ["a\\", "b", "  "], c.verdict = .goOn := by
    rw [hcalls]
    exact List.forall_mem_singleton.2 rfl
  exact ⟨hA, hgoOn, ((run_calls Echo.host).2 () _ ["fail", "c"] hA hgoOn).2.2⟩

end Session

end Redline
