import ScopedLisp.Proofs.Reader.Lines
import ScopedLisp.Proofs.Session.Contract

namespace ScopedLisp

theorem SessionM.ofEval_bind (m : EvalM Value) (f : Value → EvalM Value) :
    SessionM.ofEval (m >>= f) = (do
      let v ← SessionM.ofEval m
      SessionM.ofEval (f v)) := by
  funext σ
  rw [EvalM.bind_apply, Call.ofEval_apply, Call.ofEval_apply, EvalM.bind_apply]
  cases m σ with
  | none => rfl
  | some o =>
    obtain ⟨r, σ'⟩ := o
    cases r with
    | error e => rfl
    | ok v => exact (Call.ofEval_apply (f v) σ').symm

section

variable {ext : Embedding} {limit : Nat} {ρ : ScopeId}

/-- Values after others come to what they come to alone, and if there are none, the value of those
before counts. -/
theorem evalAll_append (vs ws : List Value) :
    evalAll ext limit ρ (vs ++ ws) = (do
      let v ← evalAll ext limit ρ vs
      let w ← evalAll ext limit ρ ws
      return if ws.isEmpty then v else w) := by
  rw [evalAll, List.foldlM_append]
  refine congrArg (evalAll ext limit ρ vs >>= ·) (funext fun v => ?_)
  cases ws with
  | nil => rfl
  | cons w ws =>
    rw [evalAll, List.foldlM_cons, List.foldlM_cons]
    exact (bind_pure _).symm

theorem evalAll_concat (vs : List Value) (v : Value) :
    evalAll ext limit ρ (vs ++ [v]) = (do
      let _ ← evalAll ext limit ρ vs
      eval ext limit ρ v) := by
  rw [evalAll_append, evalAll_singleton]
  exact congrArg (evalAll ext limit ρ vs >>= ·) (funext fun _ => bind_pure _)

/-- Values that cannot all be evaluated are evaluated up to the first that fails, and no further. -/
theorem exists_failing_of_evalAll {vs : List Value} {σ σ' : Store} {e : EvalError}
    (h : evalAll ext limit ρ vs σ = some (.error e, σ')) :
    ∃ before failing after v σ₁, vs = before ++ failing :: after ∧
      evalAll ext limit ρ before σ = some (.ok v, σ₁) ∧
      eval ext limit ρ failing σ₁ = some (.error e, σ') := by
  induction vs using List.reverseRecOn with
  | nil => cases h
  | append_singleton vs v ih =>
    rw [evalAll_concat] at h
    rcases EvalM.bind_eq_some_iff.1 h with ⟨e', hvs, he⟩ | ⟨w, σ₁, hvs, hv⟩
    · cases he
      obtain ⟨before, failing, after, w, σ₁, rfl, hbefore, hfailing⟩ := ih hvs
      exact ⟨before, failing, after ++ [v], w, σ₁, by simp, hbefore, hfailing⟩
    · exact ⟨vs, v, [], w, σ₁, rfl, hvs, hv⟩

end

/-- The error is one of a stage before evaluation. -/
def Error.IsOfText (e : Error) : Prop := e.stage = .scanning ∨ e.stage = .reading

theorem Error.isOfText_read (e : ReadError) : (Error.read e).IsOfText := by
  obtain ⟨fault, p⟩ := e
  cases fault with
  | scan => exact .inl rfl
  | _ => exact .inr rfl

theorem Error.not_isOfText_eval (e : EvalError) : ¬ (Error.eval e).IsOfText := by
  rintro (h | h) <;> cases h

/-- A run fails because of its text and leaves the store alone, or the text can be read and one of
its expressions fails. -/
theorem runSource_eq_error {ext : Embedding} {limit : Nat} {ρ : ScopeId} {source : String}
    {σ σ' : Store} {e : Error} (h : runSource ext limit ρ source σ = some (.error e, σ')) :
    (∃ e', readAll source = .error e' ∧ e = .read e' ∧ σ' = σ) ∨
      ∃ vs e', readAll source = .ok vs ∧ e = .eval e' ∧
        evalAll ext limit ρ vs σ = some (.error e', σ') := by
  cases hread : readAll source with
  | error e' =>
    rw [runSource_of_read_error hread] at h
    cases h
    exact .inl ⟨e', rfl, rfl, rfl⟩
  | ok vs =>
    rw [runSource_of_read hread, Call.ofEval_apply] at h
    obtain ⟨⟨r, σ₁⟩, hrun, heq⟩ := Option.map_eq_some_iff.1 h
    cases r with
    | ok v => cases heq
    | error e' =>
      cases heq
      exact .inr ⟨vs, e', rfl, rfl, hrun⟩

/-- Programs compose: two that can be read, with a newline between them, run one after the other,
the second only if the first one succeeds; and if the second one cannot be read, the first one is
not run either. A run fails with an error of the text if and only if the text cannot be read, and
then nothing has changed. Any other error, be it that of a supplied procedure, is one of evaluation,
as supplied procedures are assumed to have no others, and has no place. It is that of the first
expression that fails, and what the expressions before it have bound stays bound: other scopes are
as they have left them, and in the scope of the run only what the failing expression itself defines
is bound anew. -/
theorem programs_compose (ext : Embedding) (limit : Nat) (ρ : ScopeId) :
    (∀ source more vs ws, readAll source = .ok vs → readAll more = .ok ws →
      runSource ext limit ρ (source ++ "\n" ++ more) = (do
        let v ← runSource ext limit ρ source
        let w ← runSource ext limit ρ more
        return if ws.isEmpty then v else w)) ∧
    (∀ source more vs e, readAll source = .ok vs → readAll more = .error e → ∀ σ,
      runSource ext limit ρ (source ++ "\n" ++ more) σ =
        some (.error (.read (e.down (1 + source.toList.count '\n'))), σ)) ∧
    ∀ source σ,
      ((∃ e σ', runSource ext limit ρ source σ = some (.error e, σ') ∧ e.IsOfText) ↔
        ∃ e, readAll source = .error e) ∧
      ∀ e σ', runSource ext limit ρ source σ = some (.error e, σ') →
        (e.IsOfText → σ' = σ) ∧
        (¬ e.IsOfText → e.stage = .evaluation ∧ e.position? = none ∧
          ∃ before failing after v σ₁ e', readAll source = .ok (before ++ failing :: after) ∧
            evalAll ext limit ρ before σ = some (.ok v, σ₁) ∧ e = .eval e' ∧
            eval ext limit ρ failing σ₁ = some (.error e', σ') ∧
            σ₁.GrowsAt ρ (failing.Gives ρ) σ') := by
  refine ⟨?_, ?_, fun source σ => ⟨⟨?_, ?_⟩, ?_⟩⟩
  · intro source more vs ws hvs hws
    have hread : readAll (source ++ "\n" ++ more) = .ok (vs ++ ws) := by
      rw [readAll_append_newline hvs, hws]
      rfl
    rw [runSource_of_read hread, runSource_of_read hvs, runSource_of_read hws, evalAll_append,
      SessionM.ofEval_bind]
    exact congrArg (SessionM.ofEval (evalAll ext limit ρ vs) >>= ·)
      (funext fun v => SessionM.ofEval_bind _ _)
  · intro source more vs e hvs he σ
    have hread : readAll (source ++ "\n" ++ more) =
        .error (e.down (1 + source.toList.count '\n')) := by
      rw [readAll_append_newline hvs, he]
      rfl
    exact runSource_of_read_error hread σ
  · rintro ⟨e, σ', hrun, htext⟩
    rcases runSource_eq_error hrun with ⟨e', hread, -, -⟩ | ⟨vs, e', -, rfl, -⟩
    · exact ⟨e', hread⟩
    · exact absurd htext (Error.not_isOfText_eval e')
  · rintro ⟨e, hread⟩
    exact ⟨.read e, σ, runSource_of_read_error hread σ, Error.isOfText_read e⟩
  · intro e σ' hrun
    rcases runSource_eq_error hrun with ⟨e', -, rfl, rfl⟩ | ⟨vs, e', hread, rfl, hvs⟩
    · exact ⟨fun _ => rfl, fun h => absurd (Error.isOfText_read e') h⟩
    · refine ⟨fun h => absurd h (Error.not_isOfText_eval e'), fun _ => ⟨rfl, rfl, ?_⟩⟩
      obtain ⟨before, failing, after, v, σ₁, rfl, hbefore, hfailing⟩ :=
        exists_failing_of_evalAll hvs
      have hgrows := (eval_grows_apply_keeps ext limit).1 ρ failing _ (fun _ _ hv => hv) σ₁ hfailing
        (.refl _ _ _)
      exact ⟨before, failing, after, v, σ₁, e', hread, hbefore, rfl, hfailing, hgrows⟩

/-- A definition and a call of what it defines, a definition and a text that cannot be read, and a
definition that outlasts the failure after it. -/
theorem definition_outlasts_failure :
    (∃ σ, runSource .empty 3 Session.root "(defun f () f)\n(f)" Store.empty.newGlobal.2 =
      some (.ok closureF, σ)) ∧
    runSource .empty 3 Session.root "(defun f () f)\n)" Store.empty.newGlobal.2 =
      some (.error (.read ⟨.unexpectedCloseParen, ⟨2, 1⟩⟩), Store.empty.newGlobal.2) ∧
    runSource .empty 3 Session.root "(defun f () f)\ng" Store.empty.newGlobal.2 =
      some (.error (.eval (.undefinedVariable "g")), storeWithF) ∧
    ∃ before failing after v σ e, readAll "(defun f () f)\ng" = .ok (before ++ failing :: after) ∧
      evalAll .empty 3 Session.root before Store.empty.newGlobal.2 = some (.ok v, σ) ∧
      eval .empty 3 Session.root failing σ = some (.error e, storeWithF) ∧
      σ.GrowsAt Session.root (failing.Gives Session.root) storeWithF := by
  have hdefine : readAll "(defun f () f)" = .ok [namesItself] := by
    rw [readAll_eq, Scanner.readValues_of_readValue readValue_namesItself]
    exact Scanner.readValues_of_atEnd rfl _
  have hcall : readAll "(f)" = .ok [.list [.symbol "f"]] := by
    rw [readAll_eq, Scanner.readValues_of_readValue readValue_call]
    exact Scanner.readValues_of_atEnd rfl _
  have hsymbol : (Scanner.ofString "g").readValue [] = .ok (.symbol "g", ⟨[], ⟨1, 2⟩⟩) :=
    Scanner.readValue_of_next (p := .done _) rfl rfl
  have hname : readAll "g" = .ok [.symbol "g"] := by
    rw [readAll_eq, Scanner.readValues_of_readValue hsymbol]
    exact Scanner.readValues_of_atEnd rfl _
  have hclose : (Scanner.ofString ")").readValue [] = .error ⟨.unexpectedCloseParen, ⟨1, 1⟩⟩ :=
    Scanner.readValue_of_fault (t := ⟨.rightParen, ⟨1, 1⟩⟩) rfl rfl
  have hwrong : readAll ")" = .error ⟨.unexpectedCloseParen, ⟨1, 1⟩⟩ := by
    rw [readAll_eq, Scanner.readValues_eq _ (by decide), hclose]
  have hdefined : runSource .empty 3 Session.root "(defun f () f)" Store.empty.newGlobal.2 =
      some (.ok (.symbol "f"), storeWithF) := by
    rw [runSource_of_read hdefine]
    rfl
  have hcalled : ∃ σ, runSource .empty 3 Session.root "(f)" storeWithF =
      some (.ok closureF, σ) := by
    have hvalue : (evalAll .empty 3 Session.root [.list [.symbol "f"]] storeWithF).map Prod.fst =
        some (.ok closureF) := by decide +kernel
    obtain ⟨⟨_, σ⟩, hrun, rfl⟩ := Option.map_eq_some_iff.1 hvalue
    exact ⟨σ, by rw [runSource_of_read hcall, Call.ofEval_apply, hrun]; rfl⟩
  have hmissing : runSource .empty 3 Session.root "g" storeWithF =
      some (.error (.eval (.undefinedVariable "g")), storeWithF) := by
    have hunbound : storeWithF.get? Session.root "g" = none := by decide +kernel
    rw [runSource_of_read hname, Call.ofEval_apply, evalAll_singleton, eval, EvalM.lookup_apply,
      EvalM.lookupResult, hunbound]
    rfl
  obtain ⟨hboth, hunread, hruns⟩ := programs_compose .empty 3 Session.root
  have hfails : runSource .empty 3 Session.root "(defun f () f)\ng" Store.empty.newGlobal.2 =
      some (.error (.eval (.undefinedVariable "g")), storeWithF) := by
    refine (congrFun (hboth _ _ _ _ hdefine hname) _).trans ?_
    rw [EvalM.bind_apply, hdefined]
    dsimp only
    rw [EvalM.bind_apply, hmissing]
  refine ⟨?_, hunread _ _ _ _ hdefine hwrong _, hfails, ?_⟩
  · obtain ⟨σ, hrun⟩ := hcalled
    refine ⟨σ, (congrFun (hboth _ _ _ _ hdefine hcall) _).trans ?_⟩
    rw [EvalM.bind_apply, hdefined]
    dsimp only
    rw [EvalM.bind_apply, hrun]
    rfl
  · obtain ⟨-, -, before, failing, after, v, σ, e, hread, hbefore, -, hfailing, hgrows⟩ :=
      ((hruns _ _).2 _ _ hfails).2 (Error.not_isOfText_eval _)
    exact ⟨before, failing, after, v, σ, e, hread, hbefore, hfailing, hgrows⟩

end ScopedLisp
