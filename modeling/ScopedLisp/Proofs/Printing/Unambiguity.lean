import ScopedLisp.Proofs.Printing.Recovery
import ScopedLisp.Proofs.Token.Characters
import ScopedLisp.Proofs.Value.Equality

namespace ScopedLisp

/-- Texts of one class end where a character comes that is not of it. -/
theorem append_inj_of_stop {p : Char → Bool} {as bs u v : List Char} (has : ∀ c ∈ as, p c)
    (hbs : ∀ c ∈ bs, p c) (hu : ∀ c ∈ u.head?, p c = false) (hv : ∀ c ∈ v.head?, p c = false)
    (h : as ++ u = bs ++ v) : as = bs ∧ u = v := by
  have htake {cs w : List Char} (hcs : ∀ c ∈ cs, p c) (hw : ∀ c ∈ w.head?, p c = false) :
      (cs ++ w).takeWhile p = cs := by
    rw [Cut.takeWhile_append_of_stops (.inr hw), List.takeWhile_eq_self_iff.2 hcs]
  have heq : as = bs := by rw [← htake has hu, h, htake hbs hv]
  subst heq
  exact ⟨rfl, List.append_cancel_left h⟩

/-- The characters of texts in which no string and no list starts or ends. -/
def isWordChar (c : Char) : Bool := !(c == ' ' || c == '(' || c == ')' || c == '"')

/-- Characters of a class are if the class leaves out what is not. -/
theorem isWordChar_of_class {p : Char → Bool}
    (hp : p ' ' = false ∧ p '(' = false ∧ p ')' = false ∧ p '"' = false) {c : Char} (h : p c) :
    isWordChar c := by
  by_contra hc
  simp only [isWordChar, Bool.not_eq_true', Bool.not_eq_false, Bool.or_eq_true, beq_iff_eq] at hc
  rcases hc with ((rfl | rfl) | rfl) | rfl <;> simp [hp] at h

/-- The end, or what comes behind an element of a list. -/
def EndsElement (u : List Char) : Prop := ∀ c ∈ u.head?, c = ' ' ∨ c = ')'

theorem endsElement_nil : EndsElement [] := nofun

theorem EndsElement.isWordChar {u : List Char} (h : EndsElement u) :
    ∀ c ∈ u.head?, isWordChar c = false := by
  intro c hc
  rcases h c hc with rfl | rfl <;> rfl

theorem endsElement_closing (u : List Char) : EndsElement (')' :: u) := by
  rintro c ⟨⟩
  exact .inr rfl

/-- What is printed for an atom: a word that does not start with a point, or a string. -/
inductive IsAtomText : List Char → Prop
  | word {c : Char} {cs : List Char} (hword : ∀ d ∈ c :: cs, isWordChar d) (hpoint : c ≠ '.') :
    IsAtomText (c :: cs)
  | string {cs : List Char} (h : '"' ∉ cs) : IsAtomText ('"' :: cs ++ ['"'])

namespace IsAtomText

variable {cs ds u v : List Char}

theorem exists_cons (h : IsAtomText cs) : ∃ c cs', cs = c :: cs' ∧ c ≠ '.' ∧ c ≠ '(' := by
  cases h with
  | @word c cs hword hpoint =>
    refine ⟨c, cs, rfl, hpoint, ?_⟩
    rintro rfl
    cases hword _ (.head _)
  | string => exact ⟨_, _, rfl, by decide, by decide⟩

/-- The text shows where it ends. -/
theorem append_inj (hcs : IsAtomText cs) (hds : IsAtomText ds) (hu : EndsElement u)
    (hv : EndsElement v) (h : cs ++ u = ds ++ v) : cs = ds ∧ u = v := by
  have hquote {c : Char} {es : List Char} (hword : ∀ d ∈ c :: es, isWordChar d) : c ≠ '"' := by
    rintro rfl
    cases hword _ (.head _)
  cases hcs with
  | @word c cs hcs =>
    cases hds with
    | word hds => exact append_inj_of_stop hcs hds hu.isWordChar hv.isWordChar h
    | string => exact absurd (List.cons.inj h).1 (hquote hcs)
  | @string cs hcs =>
    cases hds with
    | @word d ds hds => exact absurd (List.cons.inj h).1.symm (hquote hds)
    | @string ds hds =>
      have hinside : cs ++ '"' :: u = ds ++ '"' :: v := by simpa using h
      have hno {es : List Char} (hes : '"' ∉ es) : ∀ c ∈ es, (c != '"') = true := by
        intro c hc
        exact bne_iff_ne.2 fun heq => hes (heq ▸ hc)
      have hstop (w : List Char) : ∀ c ∈ ('"' :: w).head?, (c != '"') = false := by
        rintro c ⟨⟩
        rfl
      obtain ⟨rfl, hrest⟩ := append_inj_of_stop (hno hcs) (hno hds) (hstop u) (hstop v) hinside
      exact ⟨rfl, (List.cons.inj hrest).2⟩

end IsAtomText

namespace Numeral

/-- What numerals are written with. -/
def isNumeralChar (c : Char) : Bool := c.isDigit || c ∈ ['-', '+', '.', 'e']

theorem isNumeralChar_of_isDigit {c : Char} (h : c.isDigit) : isNumeralChar c := by
  simp [isNumeralChar, h]

variable {cs : List Char}

theorem isNumeralChar_of_natural? {n : Nat} (h : natural? cs = some n) :
    ∀ c ∈ cs, isNumeralChar c := by
  unfold natural? at h
  split at h
  · next hdigits =>
    rw [Bool.and_eq_true, List.all_eq_true] at hdigits
    exact fun c hc => isNumeralChar_of_isDigit (hdigits.2 c hc)
  · cases h

theorem isNumeralChar_of_exponentPart? {e : Int} (h : exponentPart? cs = some e) :
    ∀ c ∈ cs, isNumeralChar c := by
  have hdigits {ds : List Char} (hds : natural? ds ≠ none) : ∀ c ∈ ds, isNumeralChar c := by
    obtain ⟨n, hn⟩ := Option.ne_none_iff_exists'.1 hds
    exact isNumeralChar_of_natural? hn
  unfold exponentPart? at h
  split at h
  · nofun
  · simpa using ⟨rfl, rfl, hdigits fun hnone => by simp [hnone] at h⟩
  · simpa using ⟨rfl, rfl, hdigits fun hnone => by simp [hnone] at h⟩
  · simpa using ⟨rfl, hdigits fun hnone => by simp [hnone] at h⟩
  · cases h

/-- Digits in front are written with the same characters. -/
theorem isNumeralChar_of_dropWhile (h : ∀ c ∈ cs.dropWhile Char.isDigit, isNumeralChar c) :
    ∀ c ∈ cs, isNumeralChar c := by
  intro c hc
  rw [← List.takeWhile_append_dropWhile (p := Char.isDigit) (l := cs)] at hc
  rcases List.mem_append.1 hc with hc | hc
  · exact isNumeralChar_of_isDigit (List.mem_takeWhile_imp hc)
  · exact h c hc

theorem isNumeralChar_of_fractionPart (h : ∀ c ∈ (fractionPart cs).2, isNumeralChar c) :
    ∀ c ∈ cs, isNumeralChar c := by
  unfold fractionPart at h
  split at h
  · exact List.forall_mem_cons.2 ⟨rfl, isNumeralChar_of_dropWhile h⟩
  · exact h

theorem isNumeralChar_of_unsigned? {negative : Bool} {n : Numeral}
    (h : unsigned? negative cs = some n) : ∀ c ∈ cs, isNumeralChar c := by
  unfold unsigned? at h
  dsimp only at h
  split at h
  · cases h
  · obtain ⟨e, hexponent, -⟩ := Option.map_eq_some_iff.1 h
    have hrest := isNumeralChar_of_fractionPart (isNumeralChar_of_exponentPart? hexponent)
    exact isNumeralChar_of_dropWhile hrest

theorem isNumeralChar_of_ofChars? {n : Numeral} (h : ofChars? cs = some n) :
    ∀ c ∈ cs, isNumeralChar c := by
  unfold ofChars? at h
  split at h
  · exact List.forall_mem_cons.2 ⟨rfl, isNumeralChar_of_unsigned? h⟩
  · exact isNumeralChar_of_unsigned? h

theorem isAtomText_of_ofChars? {n : Numeral} (h : ofChars? cs = some n) : IsAtomText cs := by
  have hstarts := Cut.startsNumeral_of_ofChars? h
  cases cs with
  | nil => cases hstarts
  | cons c cs =>
    have hword (d : Char) (hd : isNumeralChar d) : isWordChar d :=
      isWordChar_of_class ⟨rfl, rfl, rfl, rfl⟩ hd
    refine .word (fun d hd => hword d (isNumeralChar_of_ofChars? h d hd)) ?_
    rintro rfl
    cases hstarts

end Numeral

theorem IsSymbolText.isAtomText {cs : List Char} (h : IsSymbolText cs) : IsAtomText cs := by
  cases h with
  | intro hc hcs =>
    have hword (d : Char) (hd : isSymbolChar d) : isWordChar d :=
      isWordChar_of_class ⟨rfl, rfl, rfl, rfl⟩ hd
    refine .word (List.forall_mem_cons.2 ⟨hword _ ?_, fun d hd => hword d (hcs d hd)⟩) ?_
    · simp [isSymbolChar, hc]
    · rintro rfl
      cases hc

/-- A symbol that is found is no numeral. -/
theorem IsFound.isSymbolText {name : String} (h : IsFound name) :
    IsSymbolText name.toList ∧ Numeral.ofChars? name.toList = none := by
  obtain ⟨s, p, s', hnext⟩ := h
  have hcut := (Scanner.isOf_of_next_symbol hnext).1
  have hproper : (Token.symbol name).IsProper :=
    Token.isProper_of_ofText (congrArg Cut.outcome hcut) Token.noConfusion
  refine ⟨hproper.1, ?_⟩
  by_contra hsome
  obtain ⟨n, hn⟩ := Option.ne_none_iff_exists'.1 hsome
  have hnumber := (Cut.Starts.number (Cut.startsNumeral_of_ofChars? hn)).ofText_eq
  rw [hcut] at hnumber
  cases congrArg Cut.outcome hnumber

namespace Value

/-- A finite number, a string without a double quote, one of the constants that are printed as `T`
and `NIL`, or a symbol that can be found in a text and is not spelled like these. -/
inductive IsLegibleAtom : Value → Prop
  | number {x : Float} (h : x.isFinite) : IsLegibleAtom (.number x)
  | string {content : String} (h : '"' ∉ content.toList) : IsLegibleAtom (.string content)
  | true : IsLegibleAtom (.boolean true)
  | nil : IsLegibleAtom .nil
  | symbol {name : String} (h : IsFound name) (htrue : name ≠ "T") (hnil : name ≠ "NIL") :
    IsLegibleAtom (.symbol name)

/-- Made of such atoms by pairs. -/
inductive IsLegible : Value → Prop
  | atom {v : Value} (h : IsLegibleAtom v) : IsLegible v
  | pair {head tail : Value} (hhead : IsLegible head) (htail : IsLegible tail) :
    IsLegible (.pair head tail)

/-- The atom with the given text. -/
def ofAtomChars (cs : List Char) : Value :=
  if cs = ['T'] then .boolean true
  else if cs = ['N', 'I', 'L'] then .nil
  else if cs.head? = some '"' then .string (String.ofList cs.tail.dropLast)
  else match Numeral.ofChars? cs with
    | some n => .number n.value
    | none => .symbol (String.ofList cs)

variable {v w : Value}

theorem IsLegibleAtom.isAtomText (h : v.IsLegibleAtom) : IsAtomText v.atomChars := by
  cases h with
  | number h =>
    obtain ⟨negative, m, e, hx⟩ := Rounding.exists_ofFloat_of_isFinite h
    obtain ⟨n, hn, -⟩ := Layout.write_readsBack .display hx
    exact Numeral.isAtomText_of_ofChars? hn
  | string h => exact .string h
  | true => exact @IsAtomText.word 'T' [] (by simp [isWordChar]) (by decide)
  | nil => exact @IsAtomText.word 'N' ['I', 'L'] (by simp [isWordChar]) (by decide)
  | symbol h => exact h.isSymbolText.1.isAtomText

theorem ofAtomChars_of_head?_ne {cs : List Char} (htrue : cs ≠ ['T']) (hnil : cs ≠ ['N', 'I', 'L'])
    (hquote : cs.head? ≠ some '"') : ofAtomChars cs =
      match Numeral.ofChars? cs with
      | some n => .number n.value
      | none => .symbol (String.ofList cs) := by
  rw [ofAtomChars, if_neg htrue, if_neg hnil, if_neg hquote]

theorem ofAtomChars_of_ofChars? {cs : List Char} {n : Numeral}
    (h : Numeral.ofChars? cs = some n) : ofAtomChars cs = number n.value := by
  have hstarts := Cut.startsNumeral_of_ofChars? h
  have hquote : cs.head? ≠ some '"' := by
    intro hhead
    obtain ⟨cs', rfl⟩ := List.head?_eq_some_iff.1 hhead
    cases hstarts
  rw [ofAtomChars_of_head?_ne ?_ ?_ hquote, h]
  · rintro rfl
    cases hstarts
  · rintro rfl
    cases hstarts

theorem ofAtomChars_string (cs : List Char) :
    ofAtomChars ('"' :: cs ++ ['"']) = string (String.ofList cs) := by
  have htrue : '"' :: cs ++ ['"'] ≠ ['T'] := fun h => absurd (List.cons.inj h).1 (by decide)
  have hnil : '"' :: cs ++ ['"'] ≠ ['N', 'I', 'L'] := fun h =>
    absurd (List.cons.inj h).1 (by decide)
  have hquote : ('"' :: cs ++ ['"']).head? = some '"' := rfl
  rw [ofAtomChars, if_neg htrue, if_neg hnil, if_pos hquote, List.cons_append, List.tail_cons,
    List.dropLast_concat]

theorem ofAtomChars_symbol {name : String} (h : IsFound name) (htrue : name ≠ "T")
    (hnil : name ≠ "NIL") : ofAtomChars name.toList = symbol name := by
  obtain ⟨htext, hnone⟩ := h.isSymbolText
  have hquote : name.toList.head? ≠ some '"' := by
    intro hhead
    obtain ⟨cs, hcs⟩ := List.head?_eq_some_iff.1 hhead
    exact htext.doubleQuote_not_mem (hcs ▸ .head _)
  have hne {other : String} (h : name ≠ other) : name.toList ≠ other.toList :=
    mt String.toList_inj.1 h
  rw [ofAtomChars_of_head?_ne (hne htrue) (hne hnil) hquote, hnone, String.ofList_toList]

/-- The text of an atom tells which one it is. -/
theorem IsLegibleAtom.equal_ofAtomChars (h : v.IsLegibleAtom) :
    (ofAtomChars v.atomChars).equal v := by
  cases h with
  | @number x h =>
    obtain ⟨negative, m, e, hx⟩ := Rounding.exists_ofFloat_of_isFinite h
    obtain ⟨n, hn, hvalue⟩ := Layout.write_readsBack .display hx
    have hatom : ofAtomChars (Value.number x).atomChars = .number n.value :=
      ofAtomChars_of_ofChars? hn
    rw [hatom]
    exact hvalue
  | @string content h =>
    have hatom := ofAtomChars_string content.toList
    rw [String.ofList_toList] at hatom
    change (ofAtomChars ('"' :: content.toList ++ ['"'])).equal _
    rw [hatom]
    exact beq_self_eq_true content
  | true | nil => rfl
  | @symbol name h htrue hnil =>
    have hatom : ofAtomChars (Value.symbol name).atomChars = .symbol name :=
      ofAtomChars_symbol h htrue hnil
    rw [hatom]
    exact beq_self_eq_true name

/-- The texts of two atoms, with what comes behind them, are the same only if the atoms are. -/
theorem IsLegibleAtom.append_inj (hv : v.IsLegibleAtom) (hw : w.IsLegibleAtom) {a b : List Char}
    (ha : EndsElement a) (hb : EndsElement b) (h : v.atomChars ++ a = w.atomChars ++ b) :
    v.equal w ∧ a = b := by
  obtain ⟨hatoms, hrest⟩ := hv.isAtomText.append_inj hw.isAtomText ha hb h
  have hequal := hw.equal_ofAtomChars
  rw [← hatoms] at hequal
  exact ⟨equal_trans (equal_symm hv.equal_ofAtomChars) hequal, hrest⟩

theorem IsLegibleAtom.kind_ne_pair (h : v.IsLegibleAtom) : v.kind ≠ .pair := by
  cases h <;> simp [kind]

theorem chars_atom (h : v.kind ≠ .pair) : v.chars = v.atomChars := by
  cases v with
  | pair => exact absurd rfl h
  | _ => exact List.append_nil _

theorem tailChars_atom (h : v.kind ≠ .pair) (hnil : v ≠ nil) :
    v.tailChars = ' ' :: '.' :: ' ' :: v.atomChars ++ [')'] := by
  cases v with
  | pair => exact absurd rfl h
  | nil => exact absurd rfl hnil
  | _ => rfl

/-- No element starts with the point of a dotted end. -/
theorem IsLegible.exists_cons (h : v.IsLegible) : ∃ c cs, v.chars = c :: cs ∧ c ≠ '.' := by
  cases h with
  | atom h =>
    obtain ⟨c, cs, hcs, hpoint, -⟩ := h.isAtomText.exists_cons
    exact ⟨c, cs, (chars_atom h.kind_ne_pair).trans hcs, hpoint⟩
  | pair => exact ⟨'(', _, chars_pair _ _, by decide⟩

/-- What follows an element of a list is blank or closes the list. -/
theorem endsElement_tailChars (v : Value) (a : List Char) : EndsElement (v.tailChars ++ a) := by
  cases v with
  | nil => exact endsElement_closing a
  | pair head tail =>
    rw [tailChars_pair]
    rintro c ⟨⟩
    exact .inl rfl
  | _ =>
    rintro c ⟨⟩
    exact .inl rfl

/-- What is printed for the value, as it is or as the end of a list, together with anything that may
come behind it, is printed only for values equal to it. -/
def IsTold (v : Value) : Prop :=
  ∀ w, w.IsLegible → ∀ a b, (EndsElement a → EndsElement b → v.chars ++ a = w.chars ++ b →
    v.equal w ∧ a = b) ∧ (v.tailChars ++ a = w.tailChars ++ b → v.equal w ∧ a = b)

variable {head tail : Value} {a b : List Char}

theorem IsLegibleAtom.chars_append_ne (hv : v.IsLegibleAtom) :
    v.chars ++ a ≠ (pair head tail).chars ++ b := by
  obtain ⟨c, cs, hcs, -, hparen⟩ := hv.isAtomText.exists_cons
  rw [chars_atom hv.kind_ne_pair, hcs, chars_pair]
  exact fun h => hparen (List.cons.inj h).1

/-- A list that goes on does not end there. -/
theorem IsLegibleAtom.tailChars_append_ne (hv : v.IsLegibleAtom) (hhead : head.IsLegible) :
    v.tailChars ++ a ≠ (pair head tail).tailChars ++ b := by
  obtain ⟨c, cs, hcs, hpoint⟩ := hhead.exists_cons
  rw [tailChars_pair, hcs]
  by_cases hnil : v = .nil
  · subst hnil
    exact fun h => absurd (List.cons.inj h).1 (by decide)
  · rw [tailChars_atom hv.kind_ne_pair hnil]
    exact fun h => hpoint (List.cons.inj (List.cons.inj h).2).1.symm

theorem IsLegibleAtom.tailChars_append_inj (hv : v.IsLegibleAtom) (hw : w.IsLegibleAtom)
    (h : v.tailChars ++ a = w.tailChars ++ b) : v.equal w ∧ a = b := by
  by_cases hvnil : v = .nil <;> by_cases hwnil : w = .nil
  · subst hvnil hwnil
    exact ⟨rfl, (List.cons.inj h).2⟩
  · subst hvnil
    rw [tailChars_atom hw.kind_ne_pair hwnil] at h
    exact absurd (List.cons.inj h).1 (by decide)
  · subst hwnil
    rw [tailChars_atom hv.kind_ne_pair hvnil] at h
    exact absurd (List.cons.inj h).1 (by decide)
  · rw [tailChars_atom hv.kind_ne_pair hvnil, tailChars_atom hw.kind_ne_pair hwnil] at h
    have hatoms : v.atomChars ++ ')' :: a = w.atomChars ++ ')' :: b := by simpa using h
    obtain ⟨hequal, hrest⟩ :=
      hv.append_inj hw (endsElement_closing a) (endsElement_closing b) hatoms
    exact ⟨hequal, (List.cons.inj hrest).2⟩

theorem IsLegibleAtom.isTold (hv : v.IsLegibleAtom) : v.IsTold := by
  intro w hw a b
  cases hw with
  | atom hw =>
    refine ⟨fun ha hb h => ?_, hv.tailChars_append_inj hw⟩
    rw [chars_atom hv.kind_ne_pair, chars_atom hw.kind_ne_pair] at h
    exact hv.append_inj hw ha hb h
  | pair hhead _ =>
    exact ⟨fun _ _ h => absurd h hv.chars_append_ne,
      fun h => absurd h (hv.tailChars_append_ne hhead)⟩

/-- What stands behind the head is the rest of the list, whose first character ends the head. -/
theorem IsTold.pair (hhead : head.IsTold) (hlegible : head.IsLegible) (htail : tail.IsTold) :
    (pair head tail).IsTold := by
  intro w hw a b
  cases hw with
  | atom hw =>
    exact ⟨fun _ _ h => absurd h.symm hw.chars_append_ne,
      fun h => absurd h.symm (hw.tailChars_append_ne hlegible)⟩
  | @pair head' tail' hhead' htail' =>
    have hparts (h : head.chars ++ (tail.tailChars ++ a) = head'.chars ++ (tail'.tailChars ++ b)) :
        (Value.pair head tail).equal (.pair head' tail') ∧ a = b := by
      obtain ⟨hheads, hrest⟩ := (hhead head' hhead' _ _).1 (endsElement_tailChars _ _)
        (endsElement_tailChars _ _) h
      obtain ⟨htails, heq⟩ := (htail tail' htail' a b).2 hrest
      exact ⟨Bool.and_eq_true_iff.2 ⟨hheads, htails⟩, heq⟩
    refine ⟨fun _ _ h => hparts ?_, fun h => hparts ?_⟩
    · simpa [chars_pair] using h
    · simpa [tailChars_pair] using h

theorem IsLegible.isTold (h : v.IsLegible) : v.IsTold := by
  induction h with
  | atom h => exact h.isTold
  | pair hhead _ ihhead ihtail => exact ihhead.pair hhead ihtail

/-- Values that print alike are equal. -/
theorem equal_of_text_eq (hv : v.IsLegible) (hw : w.IsLegible) (h : v.text = w.text) :
    v.equal w := by
  have hchars : v.chars ++ [] = w.chars ++ [] := congrArg (· ++ []) (String.ofList_injective h)
  exact ((hv.isTold w hw [] []).1 endsElement_nil endsElement_nil hchars).1

/-- A string that looks like the end of a list, in a dotted list, and the two zeros. -/
theorem dotted_zeros_are_equal :
    (chain [.symbol "a-b", .number 0] (.string ") . 1")).IsLegible ∧
      (chain [.symbol "a-b", .number (-0)] (.string ") . 1")).IsLegible ∧
      (chain [.symbol "a-b", .number 0] (.string ") . 1")).text = "(a-b 0 . \") . 1\")" ∧
      (chain [.symbol "a-b", .number (-0)] (.string ") . 1")).text = "(a-b 0 . \") . 1\")" ∧
      (chain [.symbol "a-b", .number 0] (.string ") . 1")).equal
        (chain [.symbol "a-b", .number (-0)] (.string ") . 1")) := by
  have hfound : IsFound "a-b" := ⟨⟨"a-b".toList, .start⟩, .start, ⟨[], ⟨1, 4⟩⟩, rfl⟩
  have hlegible {x : Float} (hx : x.isFinite) :
      (chain [.symbol "a-b", .number x] (.string ") . 1")).IsLegible :=
    .pair (.atom (.symbol hfound (by decide) (by decide))) <| .pair (.atom (.number hx)) <|
      .atom (.string (by decide))
  have htext {x : Float} (hx : Layout.display.write x = ['0']) :
      (chain [.symbol "a-b", .number x] (.string ") . 1")).text = "(a-b 0 . \") . 1\")" := by
    simp only [text, chain_cons, chain_nil, chars_pair, tailChars_pair, chars_number, hx]
    rfl
  have hzero := hlegible (x := 0) (by decide +kernel)
  have hnegative := hlegible (x := -0) (by decide +kernel)
  have hzeroText := htext (x := 0) (by decide +kernel)
  have hnegativeText := htext (x := -0) (by decide +kernel)
  exact ⟨hzero, hnegative, hzeroText, hnegativeText,
    equal_of_text_eq hzero hnegative (hzeroText.trans hnegativeText.symm)⟩

end Value

end ScopedLisp
