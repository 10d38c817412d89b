import ScopedLisp.Proofs.Session.Programs
import ScopedLisp.Proofs.Shell.Lines

namespace ScopedLisp

/-- What is printed for the result of a call. -/
def Shell.answerText : Except Error Value → String
  | .ok v => v.text
  | .error e => "Error: " ++ e.message

def SessionLog.answers (log : SessionLog) : List String := log.map fun entry =>
  Shell.answerText entry.2

namespace Shell

variable {limit limit' : Nat} {ρ : ScopeId} {σ σ' : Store} {line : String} {ls texts : List String}
  {log : SessionLog}

/-- An answer is a call and what it comes to. -/
theorem answer_apply (limit : Nat) (ρ : ScopeId) (line : String) (σ : Store) :
    answer limit ρ line σ =
      ((Call.evaluate line).perform limit ρ σ).map fun o => (answerText o.1, o.2) := by
  change Option.bind (evalSource .empty limit ρ line σ) _ =
    (evalSource .empty limit ρ line σ).map _
  cases evalSource .empty limit ρ line σ with
  | none => rfl
  | some o =>
    obtain ⟨result, σ'⟩ := o
    cases result <;> rfl

theorem answers_cons (limit : Nat) (ρ : ScopeId) (line : String) (ls : List String) (σ : Store) :
    (line :: ls).mapM (answer limit ρ) σ =
      ((Call.evaluate line).perform limit ρ σ).bind fun o =>
        (ls.mapM (answer limit ρ) o.2).map fun rest => (answerText o.1 :: rest.1, rest.2) := by
  rw [List.mapM_cons]
  change (answer limit ρ line σ).bind _ = _
  rw [answer_apply]
  cases (Call.evaluate line).perform limit ρ σ with
  | none => rfl
  | some o =>
    change (ls.mapM (answer limit ρ) o.2).bind _ = (ls.mapM (answer limit ρ) o.2).map _
    cases ls.mapM (answer limit ρ) o.2 <;> rfl

theorem answers_concat (limit : Nat) (ρ : ScopeId) (line : String) (ls : List String) (σ : Store) :
    (ls ++ [line]).mapM (answer limit ρ) σ =
      (ls.mapM (answer limit ρ) σ).bind fun before =>
        ((Call.evaluate line).perform limit ρ before.2).map fun o =>
          (before.1 ++ [answerText o.1], o.2) := by
  induction ls generalizing σ with
  | nil =>
    rw [List.nil_append, answers_cons]
    change _ = ((Call.evaluate line).perform limit ρ σ).map _
    cases (Call.evaluate line).perform limit ρ σ <;> rfl
  | cons first ls ih =>
    rw [List.cons_append, answers_cons, answers_cons]
    cases (Call.evaluate first).perform limit ρ σ with
    | none => rfl
    | some o =>
      rw [Option.bind_some, Option.bind_some, ih]
      cases ls.mapM (answer limit ρ) o.2 with
      | none => rfl
      | some before =>
        rw [Option.bind_some, Option.map_some, Option.bind_some]
        cases (Call.evaluate line).perform limit ρ before.2 <;> rfl

/-- What is answered at a limit is answered at every higher limit. -/
theorem answers_of_le (h : limit ≤ limit') {ls : List String} {σ : Store}
    {result : List String × Store} (hrun : ls.mapM (answer limit ρ) σ = some result) :
    ls.mapM (answer limit' ρ) σ = some result := by
  induction ls generalizing σ result with
  | nil => exact hrun
  | cons line ls ih =>
    rw [answers_cons] at hrun ⊢
    obtain ⟨o, hfirst, hrest⟩ := Option.bind_eq_some_iff.1 hrun
    obtain ⟨rest, hmore, rfl⟩ := Option.map_eq_some_iff.1 hrest
    rw [Call.perform_of_le h hfirst, Option.bind_some, ih hmore]
    rfl

end Shell

namespace Session

open Shell

variable {log : SessionLog} {σ σ' : Store} {ls texts : List String} {limit : Nat}

/-- Answering more lines is going on with the session. -/
theorem goes_on (h : Session log σ)
    (hrun : ls.mapM (answer limit Session.root) σ = some (texts, σ')) :
    ∃ more : SessionLog, Session (log ++ more) σ' ∧ more.calls = ls.map .evaluate ∧
      texts = more.answers := by
  induction ls generalizing log σ texts with
  | nil =>
    cases hrun
    exact ⟨[], by simpa using h, rfl, rfl⟩
  | cons line ls ih =>
    rw [answers_cons] at hrun
    obtain ⟨⟨result, σ₁⟩, hfirst, hrest⟩ := Option.bind_eq_some_iff.1 hrun
    obtain ⟨⟨rest, σ₂⟩, hmore, heq⟩ := Option.map_eq_some_iff.1 hrest
    cases heq
    obtain ⟨more, hsession, hcalls, rfl⟩ := ih (.call h hfirst) hmore
    refine ⟨(.evaluate line, result) :: more, ?_, ?_, rfl⟩
    · simpa using hsession
    · rw [List.map_cons, ← hcalls]
      rfl

/-- The calls of a session that evaluate lines are answers to these lines. -/
theorem answers (h : Session log σ) (hcalls : log.calls = ls.map .evaluate) :
    ∃ limit, ls.mapM (answer limit Session.root) Store.empty.newGlobal.2 =
      some (log.answers, σ) := by
  induction h generalizing ls with
  | new =>
    cases ls with
    | nil => exact ⟨0, rfl⟩
    | cons line ls => cases hcalls
  | @call log σ σ' limit c result h hrun ih =>
    have hlast : (log.calls ++ [c]) = ls.map .evaluate := by
      rw [← hcalls]
      simp [SessionLog.calls]
    obtain ⟨before, last, rfl, hbefore, hc⟩ := List.map_eq_append_iff.1 hlast.symm
    obtain ⟨line, rfl, rfl⟩ := List.map_eq_singleton_iff.1 hc
    obtain ⟨limit₀, hrun₀⟩ := ih hbefore.symm
    refine ⟨max limit₀ limit, ?_⟩
    rw [answers_concat, answers_of_le (Nat.le_max_left ..) hrun₀, Option.bind_some,
      Call.perform_of_le (Nat.le_max_right ..) hrun]
    simp [SessionLog.answers]

/-- Calls of one expression each, none of which fails, come to what all the expressions together
come to. -/
theorem evalAll_read (h : Session log σ) (hread : ∀ entry ∈ log, ∃ e, entry.1.read = .ok [e])
    (hok : ∀ entry ∈ log, ∃ v, entry.2 = .ok v) :
    ∃ limit v, evalAll .empty limit Session.root log.read Store.empty.newGlobal.2 =
      some (.ok v, σ) ∧ ∀ entry ∈ log.getLast?, entry.2 = .ok v := by
  induction h with
  | new => exact ⟨0, .nil, rfl, by simp⟩
  | @call log σ σ' limit c result h hrun ih =>
    have hmem {entry : Call × Except Error Value} (he : entry ∈ log) :
        entry ∈ log ++ [(c, result)] :=
      List.mem_append_left _ he
    obtain ⟨limit₀, v₀, hbefore, -⟩ :=
      ih (fun entry he => hread entry (hmem he)) fun entry he => hok entry (hmem he)
    have hlast : (c, result) ∈ log ++ [(c, result)] := by simp
    obtain ⟨e, he⟩ := hread _ hlast
    obtain ⟨v, hv⟩ := hok _ hlast
    have heval : eval .empty limit Session.root e σ = some (.ok v, σ') := by
      rw [Call.perform_of_read he, evalAll_singleton] at hrun
      obtain ⟨⟨r, σ₁⟩, hrun₁, heq⟩ := Option.map_eq_some_iff.1 hrun
      cases heq
      cases r with
      | error e => cases hv
      | ok w => cases hv; exact hrun₁
    refine ⟨max limit₀ limit, v, ?_, by simpa using hv⟩
    rw [SessionLog.read_snoc, Call.expressions_of_read he, evalAll_concat, EvalM.bind_apply,
      refines_evalAll .empty (Nat.le_max_left limit₀ limit) _ _ hbefore]
    exact eval_of_le (Nat.le_max_right limit₀ limit) _ _ heval

end Session

namespace Shell

variable {log : SessionLog} {σ : Store} {ls : List String} {content : String}

/-- The lines that are answered. -/
def answeredLines (ls : List String) : List String := ls.filter fun line => !isBlankLine line

theorem run_file_eq (limit : Nat) {path : String} {file : String → Except FileFault String}
    (hfile : file path = .ok content) (args : List String) (input : String) :
    run limit (path :: args) file input =
      match (Call.run content).perform limit Session.root Store.empty.newGlobal.2 with
      | none => none
      | some (.ok v, _) => some ⟨0, v.text ++ "\n", ""⟩
      | some (.error e, _) => some (failure "evaluating" path e.message) := by
  rw [run, hfile]
  rfl

theorem run_file_eq_some_iff {limit : Nat} {v : Value} {path : String}
    {file : String → Except FileFault String} (hfile : file path = .ok content)
    (hrun : (Call.run content).perform limit Session.root Store.empty.newGlobal.2 = some (.ok v, σ))
    (args : List String) (input : String) (r : Result) :
    (∃ limit, run limit (path :: args) file input = some r) ↔ r = ⟨0, v.text ++ "\n", ""⟩ := by
  constructor
  · intro h
    obtain ⟨limit', h⟩ := h
    rw [run_file_eq limit' hfile] at h
    cases hperform : (Call.run content).perform limit' Session.root Store.empty.newGlobal.2 with
    | none =>
      rw [hperform] at h
      cases h
    | some o =>
      obtain ⟨result, σ'⟩ := o
      obtain ⟨rfl, rfl⟩ := Call.perform_unique hperform hrun
      rw [hperform] at h
      exact (Option.some.inj h).symm
  · intro h
    subst h
    exact ⟨limit, by rw [run_file_eq limit hfile, hrun]⟩

theorem flatMap_answeredLines (ls : List String) (read : String → List Value) :
    ls.flatMap (fun line => if isBlankLine line then [] else read line) =
      (answeredLines ls).flatMap read := by
  induction ls with
  | nil => rfl
  | cons line ls ih =>
    rw [List.flatMap_cons, ih]
    by_cases hblank : isBlankLine line <;> simp [hblank, answeredLines]

theorem isBlankLine_of_blanks {line : String} (h : Blanks line.toList) : isBlankLine line := by
  refine List.all_eq_true.2 fun c hc => ?_
  have hblank := h c hc
  simp only [isBlank, Bool.or_eq_true, beq_iff_eq] at hblank
  rcases hblank with ((rfl | rfl) | rfl) | rfl <;> rfl

/-- Each line is blank and has nothing in it, or it is a call that reads one expression. -/
theorem readAll_line {line : String} (h : Blanks line.toList ∨ ∃ e, readAll line = .ok [e]) :
    (isBlankLine line ∧ readAll line = .ok []) ∨
      ¬ isBlankLine line ∧ ∃ e, readAll line = .ok [e] ∧ (Call.evaluate line).read = .ok [e] := by
  rcases h with hblanks | ⟨e, he⟩
  · exact .inl ⟨isBlankLine_of_blanks hblanks, readAll_blanks hblanks⟩
  · refine .inr ⟨fun hblank => ?_, e, he, ?_⟩
    · cases eq_nil_of_isBlankLine hblank he
    · exact Call.read_evaluate_eq_ok_iff.2 ⟨e, readOne_of_readAll he, rfl⟩

/-- A text of such lines holds the expressions that a session with the lines reads. -/
theorem readAll_content (hcalls : log.calls = (answeredLines ls).map .evaluate)
    (hls : ∀ line ∈ ls, Blanks line.toList ∨ ∃ e, readAll line = .ok [e])
    (hcontent : HoldsLines ls content) : readAll content = .ok log.read := by
  have hlog : log.read =
      (answeredLines ls).flatMap fun line => (Call.evaluate line).expressions := by
    have hread : log.read = log.calls.flatMap Call.expressions := by
      rw [SessionLog.read, SessionLog.calls, List.flatMap_map]
    rw [hread, hcalls, List.flatMap_map]
  rw [hlog, ← flatMap_answeredLines]
  refine hcontent.readAll fun line hline => ?_
  rcases readAll_line (hls line hline) with ⟨hblank, hnil⟩ | ⟨hanswered, e, he, hread⟩
  · rw [hnil, if_pos hblank]
  · rw [he, if_neg hanswered, Call.expressions_of_read hread]

/-- The shell prints its banner and then, for each line that is not blank, what the line comes to
in the session so far, and no line ends it. If each line has one expression in it or only blanks,
and none of them fails, a file of these lines prints what the last answer is. -/
theorem shell_agrees_with_file (ls : List String) :
    ((∀ line ∈ ls, '\n' ∉ line.toList) → ∃ input, lines input = ls) ∧
    (∀ input file r, lines input = ls → ((∃ limit, run limit [] file input = some r) ↔
      ∃ log σ, Session log σ ∧ log.calls = (answeredLines ls).map .evaluate ∧
        r = ⟨0, String.join ((banner ++ log.answers).map (· ++ "\n")), ""⟩)) ∧
    ∀ log σ, Session log σ → log.calls = (answeredLines ls).map .evaluate →
      (∀ line ∈ ls, (∀ c ∈ line.toList, c = ' ' ∨ c = '\t' ∨ c = '\r') ∨
        ∃ e, readAll line = .ok [e]) →
      (∃ line ∈ ls, ∃ e, readAll line = .ok [e]) → (∀ entry ∈ log, ∃ v, entry.2 = .ok v) →
      ∃ last, log.answers.getLast? = some last ∧ ∀ content, HoldsLines ls content →
        ∀ path args file input r, file path = .ok content →
          ((∃ limit, run limit (path :: args) file input = some r) ↔
            r = ⟨0, last ++ "\n", ""⟩) := by
  refine ⟨exists_input, fun input file r hinput => ⟨?_, ?_⟩, ?_⟩
  · intro h
    obtain ⟨limit, hrun⟩ := h
    obtain ⟨output, htranscript, rfl⟩ := Option.map_eq_some_iff.1 hrun
    obtain ⟨⟨texts, σ⟩, hanswers, rfl⟩ := Option.map_eq_some_iff.1 htranscript
    rw [hinput] at hanswers
    obtain ⟨log, hsession, hcalls, rfl⟩ := Session.goes_on .new hanswers
    exact ⟨log, σ, hsession, hcalls, rfl⟩
  · intro h
    obtain ⟨log, σ, hsession, hcalls, rfl⟩ := h
    obtain ⟨limit, hanswers⟩ := hsession.answers hcalls
    refine ⟨limit, ?_⟩
    have hall : (Shell.answers limit Session.root (lines input)).run Store.empty.newGlobal.2 =
        some (log.answers, σ) := by
      rw [hinput]
      exact hanswers
    change ((Option.map _ ((Shell.answers limit Session.root (lines input)).run
      Store.empty.newGlobal.2)).map _) = _
    rw [hall]
    rfl
  · intro log σ hsession hcalls hls hsome hok
    have hlines : ∀ line ∈ ls, Blanks line.toList ∨ ∃ e, readAll line = .ok [e] := by
      intro line hline
      refine (hls line hline).imp_left fun hblank c hc => ?_
      rcases hblank c hc with rfl | rfl | rfl <;> rfl
    have hread : ∀ entry ∈ log, ∃ e, entry.1.read = .ok [e] := by
      intro entry hentry
      have hcall : entry.1 ∈ (answeredLines ls).map .evaluate :=
        hcalls ▸ List.mem_map_of_mem hentry
      obtain ⟨line, hline, heq⟩ := List.mem_map.1 hcall
      obtain ⟨hmem, hspoken⟩ := List.mem_filter.1 hline
      rcases readAll_line (hlines line hmem) with ⟨hblank, -⟩ | ⟨-, e, -, he⟩
      · simp [hblank] at hspoken
      · exact ⟨e, heq ▸ he⟩
    have hnonempty : log ≠ [] := by
      intro hnil
      obtain ⟨line, hmem, e, he⟩ := hsome
      have hspoken : ¬ isBlankLine line := fun hblank => by cases eq_nil_of_isBlankLine hblank he
      have hline : line ∈ answeredLines ls := List.mem_filter.2 ⟨hmem, by simpa using hspoken⟩
      have hcall : Call.evaluate line ∈ log.calls := hcalls ▸ List.mem_map_of_mem hline
      rw [hnil] at hcall
      cases hcall
    obtain ⟨limit, v, heval, hlast⟩ := hsession.evalAll_read hread hok
    obtain ⟨before, entry, rfl⟩ := (List.eq_nil_or_concat log).resolve_left hnonempty
    have hv : entry.2 = .ok v := hlast entry (by simp)
    refine ⟨v.text, by simp [SessionLog.answers, hv, answerText], ?_⟩
    intro content hcontent path args file input r hfile
    have hcontents := readAll_content hcalls hlines hcontent
    have hrun : (Call.run content).perform limit Session.root Store.empty.newGlobal.2 =
        some (.ok v, σ) := by
      have hread : (Call.run content).read = .ok _ := hcontents
      rw [Call.perform_of_read hread, heval]
      rfl
    exact run_file_eq_some_iff hfile hrun args input r

/-- A function that gives itself is defined and, behind a blank line, called. -/
def linesOfF : List String := ["(defun f () f)", " ", "(f)"]

theorem function_is_last_answer_and_file_output :
    (∃ input limit, lines input = linesOfF ∧ run limit [] (fun _ => .error .missing) input =
      some ⟨0, "Conslisp 0.1.0 REPL\nCtrl+D to exit.\nf\n#<FUNCTION>\n", ""⟩) ∧
    ∃ limit, run limit ["f.lisp"] (fun _ => .ok "(defun f () f)\n \n(f)\n") "" =
      some ⟨0, "#<FUNCTION>\n", ""⟩ := by
  obtain ⟨hinput, hshell, hfile⟩ := shell_agrees_with_file linesOfF
  obtain ⟨input, hlines⟩ := hinput (by decide)
  obtain ⟨σ, hsession⟩ := session_definedAndCalledF
  have hcalls : definedAndCalledF.calls = (answeredLines linesOfF).map .evaluate := rfl
  have hls : ∀ line ∈ linesOfF, (∀ c ∈ line.toList, c = ' ' ∨ c = '\t' ∨ c = '\r') ∨
      ∃ e, readAll line = .ok [e] := by
    intro line hline
    simp only [linesOfF, List.mem_cons, List.not_mem_nil, or_false] at hline
    rcases hline with rfl | rfl | rfl
    · exact .inr ⟨_, readAll_namesItself⟩
    · exact .inl (by simp)
    · exact .inr ⟨_, readAll_call⟩
  have hok : ∀ entry ∈ definedAndCalledF, ∃ v, entry.2 = .ok v := by
    intro entry hentry
    simp only [definedAndCalledF, definedF, List.cons_append, List.nil_append, List.mem_cons,
      List.not_mem_nil, or_false] at hentry
    rcases hentry with rfl | rfl <;> exact ⟨_, rfl⟩
  have hsome : ∃ line ∈ linesOfF, ∃ e, readAll line = .ok [e] :=
    ⟨_, List.mem_cons_self, _, readAll_namesItself⟩
  obtain ⟨limit, hrun⟩ := (hshell input _ _ hlines).2 ⟨_, σ, hsession, hcalls, rfl⟩
  obtain ⟨last, hlast, hcontent⟩ := hfile _ σ hsession hcalls hls hsome hok
  cases hlast
  have hholds : HoldsLines linesOfF "(defun f () f)\n \n(f)\n" := by
    have hfileLines : lines "(defun f () f)\n \n(f)\n" = linesOfF := by decide +kernel
    exact hfileLines ▸ holdsLines_lines _
  exact ⟨⟨input, limit, hlines, hrun⟩, (hcontent _ hholds "f.lisp" [] _ "" _ rfl).2 rfl⟩

end Shell

end ScopedLisp
