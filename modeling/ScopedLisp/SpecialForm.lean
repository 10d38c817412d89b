namespace ScopedLisp

/-- The forms whose arguments are handed over unevaluated. -/
inductive SpecialForm
  | quote
  | conditional
  | lambda
  | defun
  deriving DecidableEq

namespace SpecialForm

def name : SpecialForm → String
  | quote => "quote"
  | conditional => "if"
  | lambda => "lambda"
  | defun => "defun"

def ofName? : String → Option SpecialForm
  | "quote" => some quote
  | "if" => some conditional
  | "lambda" => some lambda
  | "defun" => some defun
  | _ => none

@[simp] theorem ofName?_name (form : SpecialForm) : ofName? form.name = some form := by
  cases form <;> rfl

theorem ofName?_eq_some_iff {x : String} {form : SpecialForm} :
    ofName? x = some form ↔ x = form.name := by
  constructor
  · intro h
    unfold ofName? at h
    split at h <;> simp_all [name] <;> subst h <;> rfl
  · rintro rfl
    exact ofName?_name form

end SpecialForm

end ScopedLisp
