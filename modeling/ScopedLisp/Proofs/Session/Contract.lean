import ScopedLisp.Proofs.Evaluation.Course
import ScopedLisp.Proofs.Session.Calls

namespace ScopedLisp

theorem Contract.meets_evalAll {C : Contract} {σ : Store} {ρ : ScopeId} {es : List Value}
    (h : ∀ e ∈ es, C.Code σ ρ e) (limit : Nat) :
    C.Meets C.Values σ (evalAll .empty limit ρ es) := by
  unfold evalAll
  have hnil := C.nil σ
  generalize Value.nil = last at hnil
  induction es generalizing σ last with
  | nil => exact meets_pure fun σ' hσ' => C.values_later hnil hσ'
  | cons e es ih =>
    rw [List.foldlM_cons]
    have hfirst := (C.eval_apply_meets limit).1 (h e List.mem_cons_self)
    refine hfirst.bind fun σ' v hleads hv => ih (fun e' he' => ?_) v hv
    exact C.code_later (h e' (List.mem_cons_of_mem _ he')) hleads

/-- What calls have come to so far, in order. -/
abbrev SessionLog := List (Call × Except Error Value)

def SessionLog.read (log : SessionLog) : List Value := log.flatMap fun entry => entry.1.expressions

namespace SessionLog

def calls (log : SessionLog) : List Call := log.map Prod.fst

variable (log : SessionLog)

theorem read_snoc (entry : Call × Except Error Value) :
    read (log ++ [entry]) = log.read ++ entry.1.expressions := by
  simp [read]

theorem readable_of_mem_read : ∀ e ∈ log.read, e.Readable := by
  intro e he
  obtain ⟨entry, -, he⟩ := List.mem_flatMap.1 he
  exact Call.readable_of_mem_expressions e he

end SessionLog

/-- The global scope of a new evaluator in an empty store. -/
def Session.root : ScopeId := Store.empty.newGlobal.1

theorem Session.root_lt_size : Session.root < Store.empty.newGlobal.2.scopes.size := by
  decide +kernel

/-- After a new evaluator has gone through these calls, there is the store `σ`. -/
inductive Session : SessionLog → Store → Prop
  | new : Session [] Store.empty.newGlobal.2
  | call {log : SessionLog} {σ σ' : Store} {limit : Nat} {c : Call} {result : Except Error Value}
      (h : Session log σ) (hrun : c.perform limit Session.root σ = some (result, σ')) :
      Session (log ++ [(c, result)]) σ'

/-- The same calls on a new evaluator always come to the same. -/
theorem Session.unique {log log' : SessionLog} {σ σ' : Store} (h : Session log σ)
    (h' : Session log' σ') (hcalls : log.calls = log'.calls) : log = log' ∧ σ = σ' := by
  induction h generalizing log' σ' with
  | new =>
    cases h' with
    | new => exact ⟨rfl, rfl⟩
    | call => simp [SessionLog.calls] at hcalls
  | call h hrun ih =>
    cases h' with
    | new => simp [SessionLog.calls] at hcalls
    | call h' hrun' =>
      simp only [SessionLog.calls, List.map_append, List.map_cons, List.map_nil] at hcalls
      obtain ⟨hbefore, hlast⟩ := List.append_inj' hcalls rfl
      cases hlast
      obtain ⟨rfl, rfl⟩ := ih h' hbefore
      obtain ⟨rfl, rfl⟩ := Call.perform_unique hrun hrun'
      exact ⟨rfl, rfl⟩

/-- `(defun f () f)` -/
def namesItself : Value := .list [.symbol "defun", .symbol "f", .nil, .symbol "f"]

theorem readValue_namesItself : (Scanner.ofString "(defun f () f)").readValue [] =
    .ok (namesItself, ⟨[], ⟨1, 15⟩⟩) := by
  have hsource : Scanner.ofString "(defun f () f)" =
    ⟨['(', 'd', 'e', 'f', 'u', 'n', ' ', 'f', ' ', '(', ')', ' ', 'f', ')'], ⟨1, 1⟩⟩ := rfl
  rw [hsource]
  calc _ = Scanner.readValue [.list []]
        ⟨['d', 'e', 'f', 'u', 'n', ' ', 'f', ' ', '(', ')', ' ', 'f', ')'], ⟨1, 2⟩⟩ :=
        Scanner.readValue_of_next (p := .within _) rfl rfl
    _ = Scanner.readValue [.list [.symbol "defun"]]
        ⟨[' ', 'f', ' ', '(', ')', ' ', 'f', ')'], ⟨1, 7⟩⟩ :=
        Scanner.readValue_of_next (p := .within _) rfl rfl
    _ = Scanner.readValue [.list [.symbol "f", .symbol "defun"]]
        ⟨[' ', '(', ')', ' ', 'f', ')'], ⟨1, 9⟩⟩ :=
        Scanner.readValue_of_next (p := .within _) rfl rfl
    _ = Scanner.readValue [.list [], .list [.symbol "f", .symbol "defun"]]
        ⟨[')', ' ', 'f', ')'], ⟨1, 11⟩⟩ := Scanner.readValue_of_next (p := .within _) rfl rfl
    _ = Scanner.readValue [.list [.nil, .symbol "f", .symbol "defun"]]
        ⟨[' ', 'f', ')'], ⟨1, 12⟩⟩ := Scanner.readValue_of_next (p := .within _) rfl rfl
    _ = Scanner.readValue [.list [.symbol "f", .nil, .symbol "f", .symbol "defun"]]
        ⟨[')'], ⟨1, 14⟩⟩ := Scanner.readValue_of_next (p := .within _) rfl rfl
    _ = _ := Scanner.readValue_of_next (p := .done _) rfl rfl

theorem readOne_namesItself : readOne "(defun f () f)" = .ok namesItself :=
  readOne_eq_ok_iff.2
    ⟨_, ⟨⟨[], ⟨1, 15⟩⟩, ⟨.endOfInput, ⟨1, 15⟩⟩⟩, readValue_namesItself, rfl⟩

theorem readValue_call :
    (Scanner.ofString "(f)").readValue [] = .ok (.list [.symbol "f"], ⟨[], ⟨1, 4⟩⟩) := by
  rw [show Scanner.ofString "(f)" = ⟨['(', 'f', ')'], ⟨1, 1⟩⟩ from rfl]
  calc _ = Scanner.readValue [.list []] ⟨['f', ')'], ⟨1, 2⟩⟩ :=
        Scanner.readValue_of_next (p := .within _) rfl rfl
    _ = Scanner.readValue [.list [.symbol "f"]] ⟨[')'], ⟨1, 3⟩⟩ :=
        Scanner.readValue_of_next (p := .within _) rfl rfl
    _ = _ := Scanner.readValue_of_next (p := .done _) rfl rfl

theorem readOne_call : readOne "(f)" = .ok (.list [.symbol "f"]) :=
  readOne_eq_ok_iff.2 ⟨_, ⟨⟨[], ⟨1, 4⟩⟩, ⟨.endOfInput, ⟨1, 4⟩⟩⟩, readValue_call, rfl⟩

theorem readAll_namesItself : readAll "(defun f () f)" = .ok [namesItself] := by
  rw [readAll_eq, Scanner.readValues_of_readValue readValue_namesItself]
  exact Scanner.readValues_of_atEnd rfl _

theorem readAll_call : readAll "(f)" = .ok [.list [.symbol "f"]] := by
  rw [readAll_eq, Scanner.readValues_of_readValue readValue_call]
  exact Scanner.readValues_of_atEnd rfl _

theorem read_namesItself : (Call.evaluate "(defun f () f)").read = .ok [namesItself] :=
  Call.read_evaluate_eq_ok_iff.2 ⟨_, readOne_namesItself, rfl⟩

theorem read_call : (Call.evaluate "(f)").read = .ok [.list [.symbol "f"]] :=
  Call.read_evaluate_eq_ok_iff.2 ⟨_, readOne_call, rfl⟩

def closureF : Value := .closure 0 (some "f") [] (.symbol "f") 0

/-- A function that gives itself is defined. -/
def definedF : SessionLog := [(.evaluate "(defun f () f)", .ok (.symbol "f"))]

/-- A function that gives itself is defined and called. -/
def definedAndCalledF : SessionLog := definedF ++ [(.evaluate "(f)", .ok closureF)]

def storeWithF : Store := Store.empty.newGlobal.2.newClosureId.2.bind 0 "f" closureF

theorem read_definedF : definedF.read = [namesItself] := by
  simp [definedF, SessionLog.read, Call.expressions_of_read read_namesItself]

theorem read_definedAndCalledF :
    definedAndCalledF.read = [namesItself, .list [.symbol "f"]] := by
  rw [definedAndCalledF, SessionLog.read_snoc, read_definedF,
    Call.expressions_of_read read_call]
  rfl

theorem session_definedF : Session definedF storeWithF := by
  have hrun : (Call.evaluate "(defun f () f)").perform 2 Session.root Store.empty.newGlobal.2 =
      some (.ok (.symbol "f"), storeWithF) := by
    rw [Call.perform_of_read read_namesItself]
    rfl
  exact .call .new hrun

theorem session_definedAndCalledF : ∃ σ, Session definedAndCalledF σ := by
  have hvalue : (evalAll .empty 3 Session.root [.list [.symbol "f"]] storeWithF).map Prod.fst =
      some (.ok closureF) := by decide +kernel
  obtain ⟨⟨_, σ⟩, hcall, rfl⟩ := Option.map_eq_some_iff.1 hvalue
  have hrun : (Call.evaluate "(f)").perform 3 Session.root storeWithF = some (.ok closureF, σ) := by
    rw [Call.perform_of_read read_call, hcall]
    rfl
  exact ⟨σ, .call session_definedF hrun⟩

/-- Having read so much, the session comes to evaluating the expression `e` in the store `σ`. -/
inductive Session.Starts : List Value → Store → Value → Prop
  | intro {log : SessionLog} {σ σ₁ : Store} {c : Call} {before after : List Value} {e v : Value}
      {limit : Nat} (h : Session log σ) (hread : c.read = .ok (before ++ e :: after))
      (hbefore : evalAll .empty limit Session.root before σ = some (.ok v, σ₁)) :
      Starts (log.read ++ (before ++ e :: after)) σ₁ e

/-- There is the store `σ` when a session has read so much, after a call or in the course of one. -/
inductive Session.Reaches : List Value → Store → Prop
  | after {log : SessionLog} {σ : Store} (h : Session log σ) : Reaches log.read σ
  | within {read : List Value} {σ σ' : Store} {e : Value} (h : Session.Starts read σ e)
      (hcourse : PassesThrough σ Session.root e σ') : Reaches read σ'

/-- Contracts for sessions, given all that has been read: what is read is under the contract, and
what is under it stays so when more is read. -/
structure SessionContract where
  given : List Value → Contract
  new : (given []).Holds Store.empty.newGlobal.2
  code {read : List Value} {σ : Store} {e : Value} (hread : ∀ e ∈ read, e.Readable)
    (he : e ∈ read) (hσ : Store.empty.newGlobal.2.LeadsTo σ) : (given read).Code σ Session.root e
  holds_more {read : List Value} {σ : Store} (hσ : (given read).Holds σ) (more : List Value) :
    (given (read ++ more)).Holds σ
  values_more {read : List Value} {σ : Store} {v : Value} (hv : (given read).Values σ v)
    (more : List Value) : (given (read ++ more)).Values σ v
  allows_more {read : List Value} {e : EvalError} (he : (given read).Allows e)
    (more : List Value) : (given (read ++ more)).Allows e

namespace SessionContract

variable {S : SessionContract} {log : SessionLog} {σ σ' : Store} {c : Call}

/-- One more call keeps to the contract that its expressions are under. -/
theorem perform {result : Except Error Value} {limit : Nat}
    (hrun : c.perform limit Session.root σ = some (result, σ'))
    (hnew : Store.empty.newGlobal.2.LeadsTo σ) (hσ : (S.given log.read).Holds σ) :
    let C := S.given (SessionLog.read (log ++ [(c, result)]))
    C.Holds σ' ∧ σ.LeadsTo σ' ∧ (∀ v, result = .ok v → C.Values σ' v) ∧
      ∀ e, result = .error (.eval e) → C.Allows e := by
  intro C
  have hσ' : C.Holds σ := by
    simp only [C, log.read_snoc]
    exact S.holds_more hσ _
  rcases Call.perform_eq_some_iff.1 hrun with ⟨e, -, rfl, rfl⟩ | ⟨es, r, hread, heval, rfl⟩
  · exact ⟨hσ', .refl _, nofun, nofun⟩
  · have hcode : ∀ e ∈ es, C.Code σ Session.root e := by
      intro e he
      refine S.code (SessionLog.readable_of_mem_read _) ?_ hnew
      rw [log.read_snoc, Call.expressions_of_read hread]
      exact List.mem_append_right _ he
    have hkept := Contract.meets_evalAll hcode limit heval hσ' (.refl σ)
    refine ⟨hkept.holds, hkept.leadsTo, fun v hv => ?_, fun e he => ?_⟩
    · cases r with
      | error => cases hv
      | ok =>
        cases hv
        exact hkept.value v rfl
    · cases r with
      | error =>
        cases he
        exact hkept.fails e rfl
      | ok => cases he

/-- Sessions keep to their contract, call after call. -/
theorem session (S : SessionContract) (h : Session log σ) :
    Store.empty.newGlobal.2.LeadsTo σ ∧ (S.given log.read).Holds σ ∧
      (∀ c v, (c, .ok v) ∈ log → (S.given log.read).Values σ v) ∧
        ∀ c e, (c, .error (.eval e)) ∈ log → (S.given log.read).Allows e := by
  induction h with
  | new => exact ⟨.refl _, S.new, nofun, nofun⟩
  | @call log σ σ' limit c result _ hrun ih =>
    obtain ⟨hnew, hσ, hvalues, hfails⟩ := ih
    obtain ⟨hσ', hleads, hvalue, hfail⟩ := perform hrun hnew hσ
    refine ⟨hnew.trans hleads, hσ', fun c' v hmem => ?_, fun c' e hmem => ?_⟩
    · rcases List.mem_append.1 hmem with hmem | hmem
      · rw [SessionLog.read_snoc]
        exact (S.given _).values_later (S.values_more (hvalues c' v hmem) _) hleads
      · cases List.mem_singleton.1 hmem
        exact hvalue v rfl
    · rcases List.mem_append.1 hmem with hmem | hmem
      · rw [SessionLog.read_snoc]
        exact S.allows_more (hfails c' e hmem) _
      · cases List.mem_singleton.1 hmem
        exact hfail e rfl

theorem starts (S : SessionContract) {read : List Value} {e : Value}
    (h : Session.Starts read σ e) :
    (S.given read).Holds σ ∧ (S.given read).Code σ Session.root e := by
  obtain @⟨log, σ₀, _, c, before, after, _, v, limit, h, hread, hbefore⟩ := h
  obtain ⟨hnew, hσ, -, -⟩ := S.session h
  have hreadable : ∀ e' ∈ log.read ++ (before ++ e :: after), e'.Readable := by
    rw [← Call.expressions_of_read hread]
    intro e' he'
    rcases List.mem_append.1 he' with he' | he'
    · exact log.readable_of_mem_read e' he'
    · exact Call.readable_of_mem_expressions e' he'
  have hcode : ∀ e' ∈ before ++ e :: after, ∀ {σ}, Store.empty.newGlobal.2.LeadsTo σ →
      (S.given (log.read ++ (before ++ e :: after))).Code σ Session.root e' := fun e' he' _ h =>
    S.code hreadable (List.mem_append_right _ he') h
  have hkept := Contract.meets_evalAll (fun e' he' => hcode e' (List.mem_append_left _ he') hnew)
    limit hbefore (S.holds_more hσ _) (.refl _)
  exact ⟨hkept.holds, hcode e (by simp) (hnew.trans hkept.leadsTo)⟩

/-- They keep to it also in the course of a call, whether or not it ends. -/
theorem reaches (S : SessionContract) {read : List Value} (h : Session.Reaches read σ) :
    (S.given read).Holds σ := by
  cases h with
  | after h => exact (S.session h).2.1
  | within h hcourse =>
    obtain ⟨hσ, he⟩ := S.starts h
    exact (Contract.passesThrough hcourse he hσ).1

end SessionContract

end ScopedLisp
